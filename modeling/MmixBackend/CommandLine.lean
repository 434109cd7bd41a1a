import MmixBackend.Demo

/-!
# The command line

The arguments name a demonstration program, a number of registers and a stage; the program is
printed as it looks after that stage. An option's value may follow in the same argument (with
or without an equals sign behind a one-letter option) or in the next one, where it must not
start with a dash. One-letter flags may be written together. Everything but the request for
more log lines may be given once.

`CommandLine.output` is a function from the arguments to what is printed.
-/

namespace MmixBackend.CommandLine

/-- How far to go before printing. -/
inductive Stage where
  /-- Tree code. -/
  | tree
  /-- Flat code. -/
  | flat
  /-- Flat code after its blocks were laid out. -/
  | blocks
  /-- Instructions before register allocation. -/
  | instrs
  /-- The finished program. -/
  | finished
  deriving DecidableEq, Repr

namespace Stage

/-- The name of a stage. -/
def name : Stage → String
  | .tree => "ir"
  | .flat => "canon"
  | .blocks => "blocks"
  | .instrs => "asm"
  | .finished => "alloc"

/-- The stage of a name. -/
def ofName? (s : String) : Option Stage :=
  [tree, flat, blocks, instrs, finished].find? (·.name == s)

end Stage

-- ── Arguments ────────────────────────────────────────────────────────────────

/-- What the arguments ask for; an option that was not given is none. -/
structure Options where
  program : Option Demo := none
  registers : Option Nat := none
  stage : Option Stage := none
  parallel : Bool := false
  verbose : Nat := 0
  deriving DecidableEq, Repr

/-- What reading the arguments came to. -/
inductive Request where
  | run (options : Options)
  | version
  | rejected
  deriving DecidableEq, Repr

/-- An option that takes a value. -/
inductive Setting where
  | program
  | registers
  | stage
  deriving DecidableEq, Repr

/-- The number that a text denotes: decimal digits, perhaps behind a plus sign, below
    `2 ^ 64`. -/
def count? (s : String) : Option Nat :=
  let digits := match s.toList with
    | '+' :: cs => cs
    | cs => cs
  if digits ≠ [] ∧ digits.all Char.isDigit then
    let n := digits.foldl (fun n c => 10 * n + (c.toNat - '0'.toNat)) 0
    if n < UInt64.size then some n else none
  else none

namespace Options

/-- Gives a setting a value, unless it has one or the value makes no sense. -/
def set? (o : Options) (setting : Setting) (value : String) : Option Options :=
  match setting with
  | .program => if o.program.isSome then none else
    (Demo.ofName? value).map fun d => { o with program := some d }
  | .registers => if o.registers.isSome then none else
    (count? value).map fun n => { o with registers := some n }
  | .stage => if o.stage.isSome then none else
    (Stage.ofName? value).map fun s => { o with stage := some s }

end Options

/-- The setting of a one-letter name. -/
def Setting.ofLetter? : Char → Option Setting
  | 'p' => some .program
  | 'k' => some .registers
  | 'e' => some .stage
  | _ => none

/-- The setting of a long name. -/
def Setting.ofName? : String → Option Setting
  | "program" => some .program
  | "num-regs" => some .registers
  | "emit" => some .stage
  | _ => none

/-- How far a single argument leads. -/
inductive Progress where
  | go (options : Options)
  /-- The value of the setting has to be the next argument. -/
  | await (options : Options) (setting : Setting)
  | version
  | rejected

/-- Reads one-letter options. -/
def letters (o : Options) : List Char → Progress
  | [] => .go o
  | 'V' :: _ => .version
  | 'v' :: rest => letters { o with verbose := o.verbose + 1 } rest
  | c :: rest =>
    match Setting.ofLetter? c, rest with
    | none, _ => .rejected
    | some setting, [] => .await o setting
    | some setting, '=' :: value => accept (o.set? setting (String.ofList value))
    | some setting, value => accept (o.set? setting (String.ofList value))
where
  /-- Goes on with options that could be set. -/
  accept : Option Options → Progress
    | some o => .go o
    | none => .rejected

/-- Reads a long option, with the value attached to it, if any. -/
def long (o : Options) (name : String) (value : Option String) : Progress :=
  match Setting.ofName? name, value with
  | some setting, some value => letters.accept (o.set? setting value)
  | some setting, none => .await o setting
  | none, some _ => .rejected
  | none, none =>
    match name with
    | "version" => .version
    | "verbose" => .go { o with verbose := o.verbose + 1 }
    | "parallel" => if o.parallel then .rejected else .go { o with parallel := true }
    | _ => .rejected

/-- Reads one argument that is not a value. -/
def argument (o : Options) (arg : List Char) : Progress :=
  match arg with
  | '-' :: '-' :: rest =>
    let name := rest.takeWhile (· ≠ '=')
    match rest.dropWhile (· ≠ '=') with
    | [] => long o (String.ofList name) none
    | _ :: value => long o (String.ofList name) (some (String.ofList value))
  | '-' :: c :: rest => letters o (c :: rest)
  | _ => .rejected

/-- Reads the arguments in order. Behind two dashes there can be nothing. -/
def read (o : Options) : List String → Request
  | [] => .run o
  | arg :: rest =>
    if arg = "--" then
      if rest = [] then .run o else .rejected
    else
      match argument o arg.toList, rest with
      | .go o, rest => read o rest
      | .version, _ => .version
      | .rejected, _ => .rejected
      | .await _ _, [] => .rejected
      | .await o setting, value :: rest =>
        if value.startsWith "-" then .rejected
        else match o.set? setting value with
          | some o => read o rest
          | none => .rejected

-- ── Running ──────────────────────────────────────────────────────────────────

/-- What the program prints and the code it ends with. -/
structure Output where
  exitCode : Nat
  stdout : String := ""
  stderr : String := ""
  deriving DecidableEq, Repr

/-- The text of a function after a stage before the last one. -/
def stageText (stage : Stage) (k : Nat) (f : Tree.Function) :
    ExceptT Error (Emit String) Unit := do
  if stage = .tree then
    ExceptT.lift (Emit.write [f.frame.label.text ++ ":\n    " ++ f.body.text ++ "\n"])
  else
    let flat ← Flat.Function.ofTree f
    if stage = .flat then printStmts flat
    else
      let laidOut ← ExceptT.lift flat.layOut
      if stage = .blocks then printStmts laidOut
      else
        let code ← ExceptT.lift (laidOut.select k)
        match code.listing with
        | .ok listing => ExceptT.lift (Emit.write [listing])
        | .error fault => throw (.fault fault)
where
  /-- Prints flat code, one statement on each line. -/
  printStmts (f : Flat.Function) : ExceptT Error (Emit String) Unit :=
    ExceptT.lift (Emit.write (f.stmts.map fun s => s.text ++ "\n"))

/-- Prints the functions after a stage. -/
def emitStage (stage : Stage) (k : Nat) : List Tree.Function → ExceptT Error (Emit String) Unit
  | [] => return ()
  | f :: fs => do
    stageText stage k f
    emitStage stage k fs

/-- Prints a whole program. -/
def emitProgram (k : Nat) (functions : List Tree.Function) (context : Context) :
    ExceptT Error (Emit String) Unit :=
  ExceptT.mk fun _ =>
    let r : Emitted String _ := compileProgram k functions context
    let text := r.value.bind fun program => program.text.mapError .fault
    match text with
    | .ok text => ⟨.ok (), [text], r.events, r.supply⟩
    | .error e => ⟨.error e, [], r.events, r.supply⟩

/-- What is shown of the events. -/
def level? (verbose : Nat) : Option Level :=
  match verbose with
  | 0 => none
  | 1 => some .debug
  | _ => some .trace

/-- Compiles a demonstration program and prints it. -/
def execute (o : Options) : ExceptT Error (Emit String) Unit := do
  let k := o.registers.getD 8
  let stage := o.stage.getD .finished
  ExceptT.mk (pure (checkRegisters k))
  let built := (o.program.getD .fact).build
  ExceptT.lift (Emit.reportAll built.events)
  let functions ← ExceptT.mk (pure built.functions)
  ExceptT.mk fun _ =>
    if stage = .finished then (emitProgram k functions built.context).run built.context.supply
    else (emitStage stage k functions).run built.context.supply

/-- What the program does with its arguments. -/
def output (args : List String) : Output :=
  match read {} args with
  | .rejected => { exitCode := 2 }
  | .version => { exitCode := 0, stdout := "prevc 0.1.0\n" }
  | .run o =>
    let r := (execute o).run {}
    let log := match level? o.verbose with
      | some level => String.join ((Log.lines level r.events).1.map (· ++ "\n"))
      | none => ""
    match r.value with
    | .ok () => { exitCode := 0, stdout := String.join r.code, stderr := log }
    | .error e =>
      { exitCode := 1
        stdout := String.join r.code
        stderr := log ++ "error: " ++ e.message ++ "\n" }

end MmixBackend.CommandLine
