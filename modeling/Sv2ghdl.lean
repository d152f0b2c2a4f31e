import Sv2ghdl.Syntax.Pratt
import Sv2ghdl.Syntax.Scan
import Sv2ghdl.Vamos.Netlist.Duplicates
import Sv2ghdl.Vamos.Netlist.FoldNormal
import Sv2ghdl.Vamos.Netlist.ParseErrors
import Sv2ghdl.Vamos.Netlist.Number
import Sv2ghdl.Vamos.Netlist.SourceReplay
import Sv2ghdl.Vamos.Netlist.SpiceReads
import Sv2ghdl.Vamos.Output.Statefile
import Sv2ghdl.Vamos.Spectre.Parents
import Sv2ghdl.Vamos.Spectre.StepIndex
import Sv2ghdl.Vamos.Ams.Names
import Sv2ghdl.Vamos.Ams.NetOrder
import Sv2ghdl.Vamos.Ams.CutFaithful
import Sv2ghdl.Yosys.WideShift
import Sv2ghdl.Packages.Logic3d
import Sv2ghdl.Packages.EnhLogic
import Sv2ghdl.Yosys.Topo
import Sv2ghdl.Yosys.Clocks
import Sv2ghdl.Vamos.Netlist.TopValues
import Sv2ghdl.Yosys.ClockOut
import Sv2ghdl.Yosys.CoverSound
import Sv2ghdl.Yosys.FacadeSession
import Sv2ghdl.Vamos.Output.PsfTypes
import Sv2ghdl.Vamos.Netlist.RawLayout
import Sv2ghdl.Vamos.Ams.RuleOrder
import Sv2ghdl.Yosys.RangeCopies
import Sv2ghdl.Yosys.CoverCells
import Sv2ghdl.Yosys.PowerOn
import Sv2ghdl.Yosys.ResetCone
import Sv2ghdl.Yosys.BenchRun
import Sv2ghdl.Vamos.Netlist.SaveToken
import Sv2ghdl.Vamos.Spectre.TranRows
import Sv2ghdl.Vamos.Spectre.RawHeader
import Sv2ghdl.Vamos.Netlist.SweepCover
import Sv2ghdl.Vamos.Netlist.ZeroAgree
import Sv2ghdl.Vamos.Netlist.PathSplit
import Sv2ghdl.Vamos.Netlist.WaveStart
import Sv2ghdl.Vamos.Spectre.PercentCodes
import Sv2ghdl.Vamos.Netlist.PruneExact
import Sv2ghdl.Vamos.Ams.SupplyTrace
import Sv2ghdl.Vamos.Netlist.ParamValues
import Sv2ghdl.Vamos.Spectre.SubcktNames
import Sv2ghdl.Vamos.Ams.PortMap
import Sv2ghdl.Vamos.Ams.ZBits
import Sv2ghdl.Vamos.Spectre.CheckOutput
import Sv2ghdl.Vamos.Spectre.Ground
import Sv2ghdl.Vamos.OptionTable
import Sv2ghdl.Vamos.OptionFiles
import Sv2ghdl.Vamos.VcsJob
import Sv2ghdl.Vamos.OptionPaths
import Sv2ghdl.Vamos.SameCommand
import Sv2ghdl.Lists.Parity
import Sv2ghdl.Yosys.ConeSlice
import Sv2ghdl.Yosys.ConeFold
import Sv2ghdl.Yosys.ConeExact
import Sv2ghdl.Yosys.BenchValues
import Sv2ghdl.Graph.Memo
import Sv2ghdl.Graph.Flood
import Sv2ghdl.Bfit.DemandEval
import Sv2ghdl.Yosys.WideWords
import Sv2ghdl.Yosys.WideFaithful
