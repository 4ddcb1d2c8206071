import IrBridge.Foundation.BitPacking
import IrBridge.Foundation.Framing
import IrBridge.Codec.Buffer
import IrBridge.Codec.Encode
import IrBridge.Codec.Air
import IrBridge.Codec.RoundTrip
import IrBridge.Codec.Conversion
import IrBridge.Codec.Contract
import IrBridge.Codec.BitopsBlocks
import IrBridge.Scale.Measurements
import IrBridge.Scale.NecTraffic
import IrBridge.Scale.Listing
import IrBridge.Scale.Push
import IrBridge.Client.Safety
import IrBridge.Client.Agreement
import IrBridge.Client.CreateFigure
import IrBridge.Client.JavaBuffer
import IrBridge.Client.TcpClient
import IrBridge.Client.BitsBridge
import IrBridge.Daemon.Integrity
import IrBridge.Daemon.TableBounds
import IrBridge.Daemon.Startup
import IrBridge.Daemon.Stop
import IrBridge.Config.Edits
import IrBridge.Daemon.Live
import IrBridge.Daemon.FirstServer
import IrBridge.Daemon.Lock
import IrBridge.Daemon.LateJoiner
import IrBridge.Client.ErrorDetection
import IrBridge.Client.Display
import IrBridge.Scale.MixedTraffic
import IrBridge.Scale.Commands
import IrBridge.Config.Settings
import IrBridge.Client.Sessions
import IrBridge.Daemon.FigurePath
import IrBridge.Client.Sensor
import IrBridge.Codec.SelfTest
import IrBridge.Daemon.Launch
import IrBridge.Client.LinuxLoop
import IrBridge.Daemon.CommandPath
