import MmixBackend.Flat
import MmixBackend.Instr

/-!
# Events

What the passes report about their work. An event is data; its level, its origin and its text
are functions of it, so a pass does not depend on who listens. `Log.lines` writes the events
up to a level, one line each. Only two kinds of events show instructions and so may meet a
template that cannot be filled: the log ends there.
-/

namespace MmixBackend

/-- How much detail an event gives. -/
inductive Level where
  | debug
  | trace
  deriving DecidableEq, Repr

namespace Level

/-- How a level is written. -/
def text : Level → String
  | .debug => "DEBUG"
  | .trace => "TRACE"

/-- Are events of a level shown to a listener who asked for `wanted`? -/
def shownAt (level wanted : Level) : Bool :=
  match wanted, level with
  | .debug, .trace => false
  | _, _ => true

end Level

-- ── Tables ───────────────────────────────────────────────────────────────────

/-- An instruction with the temporaries live before and after it. -/
structure LiveRow where
  instr : Instr
  liveIn : List Temp
  liveOut : List Temp
  deriving DecidableEq, Repr

/-- A node of a graph on temporaries, with its register and its neighbours. -/
structure GraphRow where
  temp : Temp
  register : Option Nat
  neighbours : List Temp
  deriving DecidableEq, Repr

/-- Temporaries between braces. -/
def bracedTemps (ts : List Temp) : String :=
  "\x7b" ++ String.join (ts.map fun t => " " ++ t.text) ++ " \x7d"

/-- Fills a text up with blanks on the right. -/
def padRight (width : Nat) (s : String) : String :=
  s ++ String.ofList (List.replicate (width - s.length) ' ')

/-- One line of a live table. -/
def LiveRow.text (row : LiveRow) : Except Fault String := do
  return "|  " ++ padRight 24 (← row.instr.text) ++ " " ++ bracedTemps row.liveIn ++ " -> " ++
    bracedTemps row.liveOut ++ "\n"

/-- A live table, one line for each instruction. -/
def liveTable (rows : List LiveRow) : Except Fault String := do
  return String.join (← rows.mapM LiveRow.text)

/-- One line of a graph. -/
def GraphRow.text (row : GraphRow) : String :=
  let mark := match row.register with
    | some r => " [label=\x22" ++ row.temp.text ++ " $" ++ toString r ++ "\x22]"
    | none => ""
  "    " ++ row.temp.text ++ mark ++ " -- " ++ bracedTemps row.neighbours ++ "\n"

/-- A graph, one line for each node. -/
def graphText (rows : List GraphRow) : String :=
  "strict graph \x7b\n" ++ String.join (rows.map GraphRow.text) ++ "\x7d\n"

-- ── Events ───────────────────────────────────────────────────────────────────

/-- Something a pass did. -/
inductive Event where
  /-- A function became a tree. -/
  | lowered (function : Label)
  /-- An operation got a temporary of its own. -/
  | materialized (rhs : Flat.Rhs) (t : Temp)
  /-- A label directly after another one was dropped in its favour. -/
  | foldedLabel (l kept : Label)
  /-- A statement that no label makes reachable was dropped. -/
  | droppedStmt (s : Flat.Stmt)
  /-- A block that no path reaches was dropped. -/
  | droppedBlock (l : Label)
  /-- A block was chained behind another one. -/
  | placed (l after : Label)
  /-- A block was moved to the end of another one. -/
  | absorbed (l into : Label)
  /-- Numbers of blocks before and after merging. -/
  | merged (function : Label) (before after : Nat)
  /-- Liveness reached its fixed point. -/
  | settled (function : Label) (passes : Nat)
  | attempt (n : Nat) (function : Label)
  | liveSets (rows : List LiveRow)
  | colorGraph (rows : List GraphRow)
  /-- A temporary was picked that may need spilling. -/
  | candidate (t : Temp) (degree : Nat) (span : Option Nat)
  /-- A temporary of low degree was set aside. -/
  | simplified (t : Temp)
  /-- A temporary was set aside that may need spilling. -/
  | risked (t : Temp)
  | selected (t : Temp) (register : Nat)
  | noRegister (t : Temp)
  | spilling (t : Temp) (function : Label)
  /-- An instruction got a value temporary for the one that is spilled. -/
  | patched (instr : Instr)
  | colored (function : Label) (attempts : Nat) (spillSize : Word)
  | compiling (function : Label)
  | compiled (function : Label) (instrs : Nat)

namespace Event

/-- How much detail the event gives. -/
def level : Event → Level
  | .droppedBlock _ | .merged .. | .attempt .. | .spilling .. | .colored .. | .compiling _
  | .compiled .. => .debug
  | _ => .trace

/-- The part of the program that reports the event. -/
def origin : Event → String
  | .lowered _ => "prevc::imcgen"
  | .materialized .. => "prevc::canon::flatten"
  | .foldedLabel .. | .droppedStmt _ | .droppedBlock _ | .placed .. | .absorbed ..
  | .merged .. => "prevc::canon::basic_blocks"
  | .settled .. => "prevc::regalloc::live_sets"
  | .candidate .. => "prevc::regalloc::color_graph"
  | .patched _ => "prevc::regalloc::spill"
  | .attempt .. | .liveSets _ | .colorGraph _ | .simplified _ | .risked _ | .selected ..
  | .noRegister _ | .spilling .. | .colored .. => "prevc::regalloc::regalloc"
  | .compiling _ | .compiled .. => "prevc::compiler"

/-- How an optional number is written. -/
def optionText : Option Nat → String
  | some n => "Some(" ++ toString n ++ ")"
  | none => "None"

/-- The text of the event. -/
def message : Event → Except Fault String
  | .lowered function => .ok ("lowered " ++ function.text)
  | .materialized rhs t => .ok ("materialize " ++ rhs.text ++ " into " ++ t.text)
  | .foldedLabel l kept => .ok ("folding label " ++ l.text ++ " into " ++ kept.text)
  | .droppedStmt s => .ok ("dropping unreachable " ++ s.text)
  | .droppedBlock l => .ok ("dropping unreachable block " ++ l.text)
  | .placed l after => .ok ("placing " ++ l.text ++ " after " ++ after.text)
  | .absorbed l into => .ok ("merging " ++ l.text ++ " into " ++ into.text)
  | .merged function before after =>
    .ok (function.text ++ ": " ++ toString before ++ " blocks, " ++ toString after ++
      " after merging")
  | .settled function passes =>
    .ok ("liveness of " ++ function.text ++ " settled after " ++ toString passes ++ " passes")
  | .attempt n function =>
    .ok ("allocation attempt " ++ toString n ++ " for " ++ function.text)
  | .liveSets rows => do return "LIVE SETS:\n" ++ (← liveTable rows)
  | .colorGraph rows => .ok ("COLOR GRAPH:\n" ++ graphText rows)
  | .candidate t degree span =>
    .ok ("spill candidate " ++ t.text ++ " (degree " ++ toString degree ++ ", span " ++
      optionText span ++ ")")
  | .simplified t => .ok (">> simplify: " ++ t.text)
  | .risked t => .ok (">> simplify (potentially spill): " ++ t.text)
  | .selected t register => .ok ("  " ++ t.text ++ " -> $" ++ toString register)
  | .noRegister t => .ok ("  * no register left for " ++ t.text)
  | .spilling t function => .ok ("spilling " ++ t.text ++ " in " ++ function.text)
  | .patched instr => do return "++ rewrite instr:\t" ++ (← instr.text)
  | .colored function attempts spillSize =>
    .ok ("colored " ++ function.text ++ " after " ++ toString attempts ++ " attempts, " ++
      Word.text spillSize ++ " bytes of spill slots")
  | .compiling function => .ok ("compiling " ++ function.text)
  | .compiled function instrs =>
    .ok (function.text ++ ": " ++ toString instrs ++ " instructions")

/-- The event as a line of a log. -/
def line (e : Event) : Except Fault String := do
  return "[" ++ e.level.text ++ " " ++ e.origin ++ "] " ++ (← e.message)

end Event

namespace Log

/-- The lines of the events shown at a level, up to the first one that cannot be written. -/
def lines (wanted : Level) : List Event → List String × Option Fault
  | [] => ([], none)
  | e :: es =>
    if e.level.shownAt wanted then
      match e.line with
      | .ok line =>
        let (rest, fault) := lines wanted es
        (line :: rest, fault)
      | .error fault => ([], some fault)
    else lines wanted es

end Log

end MmixBackend
