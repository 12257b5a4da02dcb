import Drddr.Machine.Memory
import Drddr.Bp.Table
import Drddr.Machine.Pool
import Drddr.Machine.Run
import Drddr.Machine.Fair
import Drddr.PtRegs
import Drddr.Int3.Handler
import Drddr.Bp.Overlay
import Drddr.Int3.Session
import Drddr.Bp.Restore
import Drddr.Wp.Control
import Drddr.Wp.Attribution
import Drddr.Wp.Ids
import Drddr.Wp.Exclusive
import Drddr.Wp.Races
import Drddr.Wp.Reports
import Drddr.Driver
import Drddr.Machine.Scan
import Drddr.Hook
import Drddr.Disasm.Tables
import Drddr.Disasm.Decode
import Drddr.Disasm.Encoding
import Drddr.Disasm.Lookup
import Drddr.Disasm.Address
import Drddr.Disasm.Report
import Drddr.Disasm.Displacement
import Drddr.Disasm.Stack
import Drddr.Int3.Frame
import Drddr.Machine.Assembly
import Drddr.Machine.Interrupt
import Drddr.Int3.Trampoline
import Drddr.Int3.Interrupts
import Drddr.Driver.Live
import Drddr.Driver.Drawing
import Drddr.Driver.Livelock
import Drddr.Driver.Wait
import Drddr.Driver.Returns
import Drddr.Driver.Restart
import Drddr.Driver.Sessions
import Drddr.Driver.Pages
import Drddr.Machine.Iterate
import Drddr.Driver.Ctrl
import Drddr.Module
import Drddr.Driver.Start
import Drddr.Driver.Draws
import Drddr.Driver.Listing
import Drddr.Driver.Bounds
import Drddr.Driver.Undisturbed
import Drddr.Wp.Registers
import Drddr.Machine.Block
import Drddr.Disasm.WellFormed
import Drddr.Disasm.Reported
import Drddr.Disasm.TwoRun
import Drddr.Disasm.Phantom
import Drddr.Disasm.Strings
import Drddr.Disasm.RipRelative
import Drddr.Disasm.Prefixes
import Drddr.Disasm.Absolute
import Drddr.Int3.Replant
import Drddr.Disasm.BitString
import Drddr.Disasm.Direction
import Drddr.Disasm.Effect
import Drddr.Machine.Format
import Drddr.Machine.Lines
import Drddr.Machine.Rows
import Drddr.Machine.Stream
import Drddr.Monitor
import Drddr.Monitor.Report
import Drddr.Monitor.Update
import Drddr.Monitor.File
import Drddr.Machine.Text
import Drddr.Analyzer
import Drddr.Shell
import Drddr.Shell.Leftovers
import Drddr.Machine.Ere
import Drddr.Machine.Ere.Search
import Drddr.Analyzer.TwoPass
import Drddr.Analyzer.Candidates
import Drddr.Analyzer.Program
import Drddr.Toolchain
import Drddr.Shell.Console
import Drddr.Shell.Control
import Drddr.Int3.Detection
