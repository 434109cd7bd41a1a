import MmixBackend.Allocate
import MmixBackend.Block.Layout
import MmixBackend.Lowering

/-!
# Whole programs

Compiling a function is flattening it, laying its blocks out, selecting instructions and
allocating registers. A program is the data segment and the code of its functions, which share
one supply of names and are compiled in order, up to the first error.
-/

namespace MmixBackend

-- ── Building ─────────────────────────────────────────────────────────────────

/-- A function as it comes in: as tree code or as source. -/
inductive FunctionSource where
  | tree (f : Tree.Function)
  | source (scope : Source.Scope) (body : List Source.Command) (result : Source.Operand)

/-- What building functions leaves behind. -/
structure Built where
  functions : Except Error (List Tree.Function)
  events : List Event
  context : Context

/-- Lowers functions in order, up to the first error. -/
def buildFunctions (context : Context) : List FunctionSource → Built
  | [] => ⟨.ok [], [], context⟩
  | .tree f :: rest =>
    let built := buildFunctions context rest
    { built with functions := built.functions.map (f :: ·) }
  | .source scope body result :: rest =>
    match (Source.function scope body result).run context with
    | (.error e, context) => ⟨.error e, [], context⟩
    | (.ok f, context) =>
      let built := buildFunctions context rest
      { built with
        functions := built.functions.map (f :: ·)
        events := .lowered f.frame.label :: built.events }

-- ── Compiling ────────────────────────────────────────────────────────────────

/-- Compiles a function for `k` registers. -/
def Tree.Function.compile {ω : Type} (k : Nat) (f : Tree.Function) :
    ExceptT Error (Emit ω) Code := do
  ExceptT.lift (Emit.report (.compiling f.frame.label))
  let flat ← Flat.Function.ofTree f
  let laidOut ← ExceptT.lift flat.layOut
  let selected ← ExceptT.lift (laidOut.select k)
  let (outcome, done) ← ExceptT.lift (Allocation.allocate k { code := selected, spills := {} })
  ExceptT.mk (pure outcome)
  ExceptT.lift (Emit.report (.compiled f.frame.label done.code.instrs.length))
  return done.code

/-- Compiles functions in order. -/
def compileFunctions {ω : Type} (k : Nat) : List Tree.Function → ExceptT Error (Emit ω) (List Code)
  | [] => return []
  | f :: fs => do
    let code ← f.compile k
    let codes ← compileFunctions k fs
    return code :: codes

/-- A compiled program. -/
structure Program where
  data : List DataChunk
  codes : List Code

namespace Program

/-- A line of the data segment. -/
def dataText (chunk : DataChunk) : String :=
  match chunk.init with
  | some init => chunk.label.text ++ "\tBYTE " ++ init ++ ",0\n"
  | none => chunk.label.text ++ "\tOCTA 0\t% " ++ Word.text chunk.size ++ " bytes\n"

/-- The listing of a function under a line on its frame. -/
def codeText (code : Code) : Except Fault String := do
  let frameSize ← code.frameSize
  let listing ← code.listing
  return "\n% " ++ code.frame.label.text ++ ": frame " ++ Word.text frameSize ++ " bytes, " ++
    Word.text code.spillSize ++ " of them spill slots\n" ++ listing

/-- The text of a program. -/
def text (p : Program) : Except Fault String := do
  let codes ← p.codes.mapM codeText
  return String.join (p.data.map dataText) ++ String.join codes

end Program

/-- Compiles functions of a context for `k` registers. -/
def compileProgram {ω : Type} (k : Nat) (functions : List Tree.Function) (context : Context) :
    Emitted ω (Except Error Program) :=
  let r := (compileFunctions k functions).run context.supply
  { r with value := r.value.map fun codes => { data := context.data, codes } }

end MmixBackend
