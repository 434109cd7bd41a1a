import MmixBackend.Program

/-!
# Demonstration programs

Five small programs, written as a front end would write them.
-/

namespace MmixBackend

open Source

/-- A demonstration program. -/
inductive Demo where
  /-- A recursive factorial. -/
  | fact
  /-- Fills a global array with squares and sums it up. -/
  | sumArray
  /-- A nested function that reads a parameter and a local of the function around it. -/
  | staticLink
  /-- One expression that keeps many values alive at once. -/
  | pressure
  /-- Prints a string. -/
  | hello
  deriving DecidableEq, Repr

namespace Demo

/-- All demonstration programs. -/
def all : List Demo := [fact, sumArray, staticLink, pressure, hello]

/-- The name of a demonstration program. -/
def name : Demo → String
  | .fact => "fact"
  | .sumArray => "sum-array"
  | .staticLink => "static-link"
  | .pressure => "pressure"
  | .hello => "hello"

/-- The demonstration program of a name. -/
def ofName? (s : String) : Option Demo := all.find? (·.name == s)

/-- What is said of a name that no demonstration program has. -/
def unknownName (s : String) : String := "invalid variant: " ++ s

/-- The value of a variable. -/
def var (name : String) : Operand := .read (.var name)

/-- Assigns to a variable. -/
def assign (name : String) (x : Operand) : Command := .assign (.var name) x

/-- A place at a word offset from the frame pointer of the function declared at `depth`. -/
def wordAt (offset : Word) (depth : Nat) : Access := .relative (offset * Word.size) depth

/-- A function `main` that runs commands with calls of at most one argument. -/
def mainOf (frame : Frame) (body : List Command) : FunctionSource :=
  .source { frame, accesses := ∅ } body (.int 0)

/-- Prints the result of a call. -/
def printCall (f : String) (args : List Operand) : Command :=
  .eval (.call (.named "_putInt") 1 [.call (.named f) 1 args])

/-- The frame of a `main` function. -/
def mainFrame (c : Context) : Frame × Context := c.freshFrame (.named "main") 1 0 16

/-- The functions of the factorial. -/
def factSources (c : Context) : List FunctionSource × Context :=
  let (frame, c) := c.freshFrame (.named "fact") 1 8 16
  let (main, c) := mainFrame c
  let accesses : Accesses := (∅ : Accesses).insert "r" (wordAt (-1) 1) |>.insert "n" (wordAt 1 1)
  let body :=
    [.cond (.binop .le (var "n") (.int 1))
      [assign "r" (.int 1)]
      [assign "r" (.binop .mul (var "n")
        (.call (.named "fact") 1 [.binop .sub (var "n") (.int 1)]))]]
  ([.source { frame, accesses } body (var "r"), mainOf main [printCall "fact" [.int 5]]], c)

/-- The functions of the array sum. -/
def sumSources (c : Context) : List FunctionSource × Context :=
  let length : Word := 10
  let (xs, c) := c.addGlobal "xs" (length * Word.size)
  let (frame, c) := c.freshFrame (.named "sum") 1 16 0
  let (main, c) := mainFrame c
  let accesses : Accesses :=
    (∅ : Accesses).insert "i" (wordAt (-1) 1) |>.insert "s" (wordAt (-2) 1) |>.insert "xs" xs
  let elem := Place.index (.var "xs") (var "i") Word.size
  let countUp (body : Command) : Command :=
    .loop (.binop .lt (var "i") (.int length)) [body, assign "i" (.binop .add (var "i") (.int 1))]
  let body :=
    [assign "i" (.int 0),
      countUp (.assign elem (.binop .mul (var "i") (var "i"))),
      assign "s" (.int 0),
      assign "i" (.int 0),
      countUp (assign "s" (.binop .add (var "s") (.read elem)))]
  ([.source { frame, accesses } body (var "s"), mainOf main [printCall "sum" []]], c)

/-- The nested function, the function around it and `main`. -/
def linkSources (c : Context) : List FunctionSource × Context :=
  let (outerFrame, c) := c.freshFrame (.named "outer") 1 8 16
  let (innerFrame, c) := c.freshFrame (.named "inner") 2 0 0
  let (main, c) := mainFrame c
  let outer : Accesses := (∅ : Accesses).insert "y" (wordAt (-1) 1) |>.insert "x" (wordAt 1 1)
  let inner := outer.insert "z" (wordAt 1 2)
  ([.source { frame := innerFrame, accesses := inner } []
      (.binop .add (.binop .add (var "x") (var "y")) (var "z")),
    .source { frame := outerFrame, accesses := outer }
      [assign "y" (.binop .mul (var "x") (.int 2))] (.call (.named "inner") 2 [.int 3]),
    mainOf main [printCall "outer" [.int 4]]], c)

/-- The function that keeps many values alive. -/
def pressureSources (c : Context) : List FunctionSource × Context :=
  let names := ["a", "b", "c", "d", "e", "f", "g", "h"]
  let (frame, c) := c.freshFrame (.named "pressure") 1 64 0
  let accesses : Accesses := names.zipIdx.foldl
    (fun m (name, i) => m.insert name (wordAt (-(Word.ofCount i + 1)) 1)) ∅
  let body := names.zipIdx.map fun (name, i) => assign name (.int (Word.ofCount i + 1))
  let pair (op : BinOp) (x y : String) : Operand := .binop op (var x) (var y)
  let result : Operand :=
    .binop .sub
      (.binop .add
        (.binop .sub
          (.binop .mul (pair .add "a" "b") (pair .add "c" "d"))
          (.binop .mul (pair .add "e" "f") (pair .add "g" "h")))
        (pair .mul "a" "h"))
      (pair .div "b" "c")
  ([.source { frame, accesses } body result], c)

/-- The function that prints a string. -/
def helloSources (c : Context) : List FunctionSource × Context :=
  let (main, c) := mainFrame c
  ([mainOf main
    [.eval (.call (.named "_putString") 1 [.str "hello, world"]),
      .eval (.call (.named "_putChar") 1 [.int 10])]], c)

/-- The functions of a demonstration program. -/
def sources : Demo → Context → List FunctionSource × Context
  | .fact => factSources
  | .sumArray => sumSources
  | .staticLink => linkSources
  | .pressure => pressureSources
  | .hello => helloSources

/-- A demonstration program as tree code. -/
def build (demo : Demo) : Built :=
  let (functions, c) := demo.sources {}
  buildFunctions c functions

end Demo

end MmixBackend
