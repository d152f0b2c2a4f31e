import Sv2ghdl.Lists.OrderedDict
import Sv2ghdl.Python.PosixPath
import Sv2ghdl.Python.Unicode
import Sv2ghdl.Syntax.Pieces
import Sv2ghdl.Vamos.OptionTable

/-!
# The job of a vcs command line

`vamos/personalities/vcs.py`: the option table, and what its options, source files and unknown options leave in the
job (`vamos/job.py`).
-/

open Python PosixPath Vamos.OptionTable

namespace Vamos.Vcs

inductive Disposition where
  | ignored | noted | unsupported | unknown
  deriving DecidableEq

/-- What an option calls: one of the functions of `vcs.py`, or `job.note`. -/
inductive Act where
  | exe | log | mdir | timescale | overrideTimescale
  | libExts | incdir | define | libfile | libdir | top
  | sverilog | runNow | dumpvarsAll
  | debug (name : Str)
  | ntbOpts | cm | ams
  | note (disposition : Disposition) (text : Str)
  deriving DecidableEq

def calls (name : String) (arity : Arity) (act : Act) : Opt Act := ⟨str name, arity, act⟩

def ignored (name : String) (arity : Arity) : Opt Act := ⟨str name, arity, .note .ignored []⟩

def noted (name : String) (arity : Arity) (text : String) : Opt Act := ⟨str name, arity, .note .noted (str text)⟩

def unsupported (name : String) (arity : Arity) (text : String) : Opt Act :=
  ⟨str name, arity, .note .unsupported (str text)⟩

/-- `OPTIONS` -/
def options : List (Opt Act) :=
  [ calls "-o" .next .exe, calls "-R" .flag .runNow, calls "-l" .next .log, calls "-Mdir" .eq .mdir,
    calls "-top" .next .top, calls "+incdir+" .plus .incdir, calls "+define+" .plus .define,
    calls "-v" .next .libfile, calls "-y" .next .libdir, calls "+libext+" .plus .libExts,
    calls "-sverilog" .flag .sverilog, ignored "+v2k" .flag,
    noted "+systemverilogext+" .plus "extension list recorded; .sv/.svh are SV already",
    ignored "+verilog2001ext+" .plus, ignored "+verilog1995ext+" .plus, calls "-timescale" .eq .timescale,
    calls "-override_timescale" .eq .overrideTimescale, unsupported "-pvalue+" .prefixed "parameter overrides",
    unsupported "-parameters" .next "parameter override file",
    unsupported "+plusarg_save" .flag "runtime options are not compiled into simv: give them to ./simv",
    noted "+plusarg_ignore" .flag "runtime options are never compiled into simv",
    calls "-debug_access" .prefixed (.debug (str "-debug_access")), ignored "-debug_region" .prefixed,
    calls "-debug_all" .flag (.debug (str "-debug_all")), calls "-debug_pp" .flag (.debug (str "-debug_pp")),
    calls "-debug" .flag (.debug (str "-debug")), noted "-kdb" .prefixed "Verdi KDB is not produced",
    calls "+vcs+vcdpluson" .flag (.debug (str "+vcs+vcdpluson")), calls "+vcs+dumpvars" .flag .dumpvarsAll,
    noted "-gui" .prefixed "no GUI ($dumpvars writes a VCD for a wave viewer)",
    noted "-verdi" .flag "Verdi is not available", noted "-ucli" .flag "UCLI scripting arrives in a later phase",
    ignored "-lca" .flag, calls "-cm" .next .cm, unsupported "-cm_dir" .next "", unsupported "-cm_name" .next "",
    unsupported "-cm_hier" .next "", unsupported "-cm_tgl" .next "",
    noted "-assert" .next "assertion control options not mapped yet", calls "-ntb_opts" .next .ntbOpts,
    unsupported "-xprop" .prefixed "nvc X semantics differ; see docs",
    noted "+notimingcheck" .flag "timing checks are not modelled",
    noted "+nospecify" .flag "specify blocks are not modelled", noted "+delay_mode_zero" .flag "",
    noted "+delay_mode_unit" .flag "", noted "+delay_mode_path" .flag "", noted "+delay_mode_distributed" .flag "",
    noted "+maxdelays" .flag "", noted "+mindelays" .flag "", noted "+typdelays" .flag "",
    unsupported "-P" .next "PLI/VPI tables (planned via nvc --load)",
    unsupported "-load" .next "VPI libraries (planned via nvc --load)", unsupported "-CFLAGS" .next "DPI-C",
    unsupported "-LDFLAGS" .next "DPI-C", unsupported "-cpp" .next "DPI-C", unsupported "-cc" .next "DPI-C",
    ignored "-full64" .flag, ignored "-licqueue" .flag, ignored "-licwait" .next, ignored "+vcs+lic+wait" .flag,
    ignored "+vcs+lic+vcsi" .flag, ignored "-ID" .flag, ignored "-id" .flag, ignored "-notice" .flag,
    ignored "-q" .flag, ignored "-V" .flag, ignored "-nc" .flag, ignored "-j" .prefixed,
    ignored "-fastcomp" .prefixed, ignored "-partcomp" .prefixed, ignored "-pcmakeprof" .flag,
    ignored "+lint=" .prefixed, ignored "+warn=" .prefixed, ignored "-error=" .prefixed,
    ignored "-suppress=" .prefixed, ignored "+error+" .prefixed, ignored "-ignore" .next, ignored "+vpi" .flag,
    ignored "+acc" .prefixed, ignored "+cli" .prefixed, ignored "-picarchive" .flag, ignored "-reportstats" .flag,
    ignored "-diag" .next, calls "-ad" .flag .ams, calls "-ad" .eq .ams, calls "+ad" .flag .ams,
    calls "+ad=" .prefixed .ams, unsupported "-ams" .flag "the Verilog-AMS flow is not in vcs-ams v1",
    noted "-ams_discipline" .next "", noted "-ams_dresolution" .flag "",
    noted "-ams_iereport" .flag "the interface-element report is always written",
    noted "-ad_iereport" .flag "the interface-element report is always written", noted "-realport" .flag "",
    noted "-adopt" .next "", noted "-xlrm" .next "", noted "-wreal" .next "", noted "+verilogamsext+" .plus "",
    unsupported "-sysc" .eq "SystemC", noted "+msvsdf" .flag "", noted "+msvsdfext" .flag "",
    noted "+bidir+" .prefixed "", noted "+print+bidir+warn" .flag "" ]

/-- `TABLE` -/
def table : Table Act := .of options

/-! ## Jobs -/

inductive Lang where
  | verilog | sv
  deriving DecidableEq

structure Source where
  path : Str
  lang : Lang
  deriving DecidableEq

structure Unmapped where
  option : Str
  disposition : Disposition
  note : Str
  deriving DecidableEq

/-- The fields of `Job` that the scan writes. -/
@[ext] structure Job where
  sources : List Source
  libFiles : List Str
  libDirs : List Str
  libExts : List Str
  incdirs : List Str
  defines : OrderedDict Str (Option Str)
  timescale : Option Str
  overrideTimescale : Option Str
  std : Lang
  tops : List Str
  exe : Str
  mdir : Str
  log : Option Str
  run : Bool
  plusargs : List Str
  debug : List Str
  coverage : List Str
  unmapped : List Unmapped
  amsControl : Option Str
  dumpvarsAll : Bool

/-- The job before the scan. -/
def Job.initial : Job where
  sources := []
  libFiles := []
  libDirs := []
  libExts := []
  incdirs := []
  defines := .empty
  timescale := none
  overrideTimescale := none
  std := .verilog
  tops := []
  exe := str "simv"
  mdir := str "csrc"
  log := none
  run := false
  plusargs := []
  debug := []
  coverage := []
  unmapped := []
  amsControl := none
  dumpvarsAll := false

def Job.note (job : Job) (option : Str) (disposition : Disposition) (text : Str) : Job :=
  { job with unmapped := job.unmapped ++ [⟨option, disposition, text⟩] }

section Calls

variable (U : UnicodeData) (cwd : Str)

/-- `_abs` -/
def abs (p : Str) : Str := if isAbs p then p else normpath (join cwd p)

def vhdlExts : List Str := [str ".vhd", str ".vhdl", str ".vho"]

def cExts : List Str := [str ".c", str ".cc", str ".cpp", str ".cxx", str ".o", str ".a", str ".so"]

def vaExts : List Str := [str ".va", str ".vams"]

/-- `VERILOG_EXTS.get(ext, "verilog")` -/
def langOf (ext : Str) : Lang :=
  if ext = str ".sv" ∨ ext = str ".svh" ∨ ext = str ".svp" then .sv else .verilog

/-- `_positional` -/
def positional (job : Job) (tok : Str) : Job :=
  let path := abs cwd tok
  let ext := U.lower (ext tok)
  if ext ∈ vhdlExts then
    job.note tok .unsupported (str "VHDL sources go through vhdlan in the three-step flow (phase 2)")
  else if ext ∈ cExts then job.note tok .unsupported (str "C/C++ sources for DPI/PLI")
  else if ext ∈ vaExts then
    job.note tok .unsupported (str "Verilog-A/AMS sources are the Verilog-AMS flow (not in " ++
      str "vcs-ams v1); Verilog-A goes into the SPICE netlist with .hdl")
  else
    let lang := langOf ext
    { job with sources := job.sources ++ [⟨path, if job.std = .sv ∧ lang = .verilog then .sv else lang⟩] }

/-- `_unknown` -/
def unknown (job : Job) (tok : Str) : Job :=
  if (str "--vamos-").isPrefixOf tok then
    job.note tok .unsupported (str "vamos options are read from the command line only, not from option files")
  else if tok.head? = some plus then { job with plusargs := job.plusargs ++ [tok] }
  else job.note tok .unknown []

/-- One turn of the loop of `_define`: `d.partition("=")`, where a macro without `=` has no value. -/
def setDefine (defines : OrderedDict Str (Option Str)) (d : Str) : OrderedDict Str (Option Str) :=
  match Pieces.cut ('=' : CodePoint) d with
  | some (k, v) => defines.set k (some v)
  | none => defines.set d none

/-- What an option does to the job. -/
def Act.apply (job : Job) (shown : Str) (v : Value) : Act → Job
  | .exe => { job with exe := v.toStr }
  | .log => { job with log := some (abs cwd v.toStr) }
  | .mdir => { job with mdir := v.toStr }
  | .timescale => { job with timescale := some v.toStr }
  | .overrideTimescale => { job with overrideTimescale := some v.toStr }
  | .libExts => { job with libExts := job.libExts ++ v.toList }
  | .incdir => { job with incdirs := job.incdirs ++ v.toList.map (abs cwd) }
  | .define => { job with defines := v.toList.foldl setDefine job.defines }
  | .libfile => { job with libFiles := job.libFiles ++ [abs cwd v.toStr] }
  | .libdir =>
    { job with libDirs := job.libDirs ++ [abs cwd v.toStr] }.note (str "-y " ++ v.toStr) .noted
      (str "library directories are recorded but modules are not yet pulled from them; list the files or use -v")
  | .top => { job with tops := job.tops ++ plusParts v.toStr }
  | .sverilog => { job with std := .sv }
  | .runNow => { job with run := true }
  | .dumpvarsAll => { job with dumpvarsAll := true }
  | .debug name =>
    { job with debug := job.debug ++ [name ++ v.toStr] }.note (name ++ v.toStr) .noted
      (str "no debug database or VPD/FSDB waves are produced; $dumpvars writes a VCD")
  | .ntbOpts =>
    if str "uvm" <:+: v.toStr then
      job.note (str "-ntb_opts " ++ v.toStr) .unsupported
        (str "UVM needs SystemVerilog class support in sv2ghdl; tracked separately")
    else job.note (str "-ntb_opts " ++ v.toStr) .noted []
  | .cm =>
    { job with coverage := job.coverage ++ [v.toStr] }.note (str "-cm " ++ v.toStr) .unsupported
      (str "coverage mapping onto nvc --cover is planned")
  | .ams => { job with amsControl := some (if v.toStr = [] then [] else abs cwd v.toStr) }
  | .note disposition text => job.note shown disposition text

/-- A call of the scan. -/
def Job.apply (job : Job) : Call Act → Job
  | .positional tok => positional U cwd job tok
  | .unknown tok => unknown job tok
  | .option o shown v => o.act.apply cwd job shown v

section

-- The equations that many lemmas unfold side by side are derived once here.
attribute [local simp] positional Act.apply Job.apply

end

end Calls

end Vamos.Vcs
