import Lichee.Base.Words
import Lichee.Base.CStr
import Lichee.Base.Crc
import Lichee.Base.Stdio
import Lichee.Base.Errors
import Lichee.Base.Loop
import Lichee.Base.Stuffing
import Lichee.Base.Once
import Lichee.Base.Search
import Lichee.Base.Input
import Lichee.Base.Nearest
import Lichee.Base.Device
import Lichee.Base.Scanf
import Lichee.Base.Paths
import Lichee.Base.Memory
import Lichee.Base.Factor
import Lichee.Script.Value
import Lichee.Script.Parser
import Lichee.Script.Faults
import Lichee.Script.Fetch
import Lichee.Script.Image
import Lichee.Script.Store
import Lichee.Script.Lines
import Lichee.Script.Layout
import Lichee.Script.Bounds
import Lichee.Script.LineLoop
import Lichee.Script.Inert
import Lichee.Script.Text
import Lichee.Script.Hex
import Lichee.Script.Locality
import Lichee.Script.Gpio
import Lichee.Script.ValueBounds
import Lichee.Script.ValueBuffer
import Lichee.Script.Run
import Lichee.Script.RoundTrip
import Lichee.Script.Tables
import Lichee.Script.SwScript
import Lichee.Script.SetInt
import Lichee.Script.Shell
import Lichee.Core.TestCase
import Lichee.View.Items
import Lichee.View.Rows
import Lichee.View.Wifi
import Lichee.View.Touch
import Lichee.View.Track
import Lichee.View.Buttons
import Lichee.View.Scale
import Lichee.View.Colors
import Lichee.View.Signal
import Lichee.Core.Message
import Lichee.Core.Launcher
import Lichee.Core.Failures
import Lichee.Core.ParseTestcase
import Lichee.Core.Isolation
import Lichee.Core.Capacity
import Lichee.Bluetooth.Skb
import Lichee.Bluetooth.H5
import Lichee.Bluetooth.Crc
import Lichee.Bluetooth.Sender
import Lichee.Bluetooth.Line
import Lichee.Bluetooth.Receiver
import Lichee.Bluetooth.Framing
import Lichee.Bluetooth.Download
import Lichee.Bluetooth.Session
import Lichee.Bluetooth.Packets
import Lichee.Bluetooth.Chunks
import Lichee.Bluetooth.ConfigFile
import Lichee.Bluetooth.Patch
import Lichee.Bluetooth.Reads
import Lichee.Bluetooth.Attach
import Lichee.Bluetooth.Acts
import Lichee.Bluetooth.Handshake
import Lichee.Bluetooth.Retries
import Lichee.Bluetooth.Commands
import Lichee.Bluetooth.FinalPatch
import Lichee.Bluetooth.PatchRun
import Lichee.Makedevs.Table
import Lichee.Makedevs.Directory
import Lichee.Makedevs.Root
import Lichee.Makedevs.Lines
import Lichee.Jpegtool.DumpImage
import Lichee.Storage.SelfTest
import Lichee.Wifitester.Uevent
import Lichee.Scripts.GraphDepends
import Lichee.Scripts.NodeNames
import Lichee.Kconfig.Expr
import Lichee.Kconfig.Transform
import Lichee.Kconfig.Equal
import Lichee.Kconfig.Join
import Lichee.Kconfig.Slots
import Lichee.Kconfig.Dups
import Lichee.Kconfig.Compare
import Lichee.Kconfig.Menu
import Lichee.Kconfig.Symbols
import Lichee.Kconfig.Meaning
import Lichee.Kconfig.Calls
import Lichee.Kconfig.Choices
import Lichee.Kconfig.Calculation
import Lichee.Kconfig.Coherence
import Lichee.Kconfig.Order
import Lichee.Kconfig.SetValue
import Lichee.Kconfig.Exclusive
import Lichee.Base.Ask
import Lichee.Base.Outcome
