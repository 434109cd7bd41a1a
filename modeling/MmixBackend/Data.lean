import MmixBackend.Frame

/-!
# The data segment

String literals and globals take up chunks of the data segment, in the order in which they
are first asked for. Equal literals share one chunk, found through the string table. A
`Context` joins the data segment with the supply of names: it is everything that the functions
of one program share.
-/

namespace MmixBackend

/-- A piece of the data segment. -/
structure DataChunk where
  label : Label
  /-- Size in bytes. -/
  size : Word
  /-- A quoted literal, for a chunk that is not zero at the start. -/
  init : Option String
  deriving DecidableEq, Repr

/-- What the functions of one program share. -/
structure Context where
  supply : Supply := {}
  data : List DataChunk := []
  /-- The label of each literal's chunk. -/
  strings : Std.ExtTreeMap String Label := ∅

namespace Context

/-- A fresh label. -/
def freshLabel (c : Context) : Label × Context :=
  let (l, supply) := c.supply.freshLabel
  (l, { c with supply })

/-- A frame with fresh temporaries. -/
def freshFrame (label : Label) (depth : Nat) (localsSize argsSize : Word) (c : Context) :
    Frame × Context :=
  let (frame, supply) := Frame.fresh label depth localsSize argsSize c.supply
  (frame, { c with supply })

/-- The chunk of a literal: one word for each character and one for the terminator. -/
def stringChunk (label : Label) (text : String) : DataChunk :=
  { label, size := Word.ofCount ((text.length + 1) * 8), init := some (Text.quote text) }

/-- The label of the chunk that holds `text`. -/
def internString (text : String) (c : Context) : Label × Context :=
  match c.strings[text]? with
  | some l => (l, c)
  | none =>
    let (l, supply) := c.supply.freshLabel
    (l, { supply
          data := c.data ++ [stringChunk l text]
          strings := c.strings.insert text l })

/-- Reserves a global that is zero at the start. -/
def addGlobal (name : String) (size : Word) (c : Context) : Access × Context :=
  (.absolute (.named name),
    { c with data := c.data ++ [{ label := .named name, size, init := none }] })

end Context

end MmixBackend
