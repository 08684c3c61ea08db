import GoodCommand.Library.Dict

/-! The Python values that `parase_fio.py` handles: what `json.load` returns, and the operations the
script performs on it. -/

namespace GoodCommand.Fio

inductive PyErr where
  | keyError
  | typeError
  | indexError
  | attributeError
  | zeroDivisionError
  | overflowError
  | osError
  deriving DecidableEq

/-- A JSON value, an object with its members in file order. -/
inductive Json (N : Type) where
  | null
  | bool (b : Bool)
  | num (x : N)
  | str (s : String)
  | arr (items : List (Json N))
  | obj (members : List (String × Json N))

/-- Python's numbers. `index` is the value of an `int`, and `none` of a `float`. -/
structure Numbers (N : Type) where
  ofNat : ℕ → N
  add : N → N → Except PyErr N
  ge : N → N → Bool
  div : N → N → Except PyErr N
  index : N → Option ℤ

abbrev Result (N : Type) := Dict String (Json N)

variable {N : Type} (py : Numbers N)

/-- `True` and `False` count as numbers. -/
def asNumber : Json N → Option N
  | .num x => some x
  | .bool b => some (py.ofNat b.toNat)
  | _ => none

/-- `a + b`, where `a` is a number. -/
def pyAdd (a b : Json N) : Except PyErr (Json N) :=
  match asNumber py a, asNumber py b with
  | some x, some y => (py.add x y).map .num
  | _, _ => .error .typeError

/-- `a >= b`, where `b` is a number. -/
def pyGe (a b : Json N) : Except PyErr Bool :=
  match asNumber py a, asNumber py b with
  | some x, some y => .ok (py.ge x y)
  | _, _ => .error .typeError

/-- `a / b`, where `b` is a number. -/
def pyDiv (a b : Json N) : Except PyErr (Json N) :=
  match asNumber py a, asNumber py b with
  | some x, some y => (py.div x y).map .num
  | _, _ => .error .typeError

/-- `l[i]`; negative indices count from the end. -/
def listItem {α : Type} (l : List α) (i : ℤ) : Except PyErr α :=
  let i := if i < 0 then i + l.length else i
  match if i < 0 then none else l[i.toNat]? with
  | some a => .ok a
  | none => .error .indexError

def getItem (value key : Json N) : Except PyErr (Json N) :=
  match value, key with
  | .obj members, .str k =>
    match (Dict.ofPairs members).get? k with
    | some v => .ok v
    | none => .error .keyError
  | .obj _, .arr _ => .error .typeError
  | .obj _, .obj _ => .error .typeError
  | .obj _, _ => .error .keyError
  | .arr items, key =>
    match (asNumber py key).bind py.index with
    | some i => listItem items i
    | none => .error .typeError
  | .str s, key =>
    match (asNumber py key).bind py.index with
    | some i => (listItem s.toList i).map fun c => .str (String.singleton c)
    | none => .error .typeError
  | _, _ => .error .typeError

def getPath (value : Json N) (path : List (Json N)) : Except PyErr (Json N) :=
  path.foldlM (getItem py) value

/-- What `for item in value` runs through; `len(value)` is its length. -/
def iterate : Json N → Except PyErr (List (Json N))
  | .arr items => .ok items
  | .obj members => .ok ((Dict.ofPairs members).keys.map .str)
  | .str s => .ok (s.toList.map fun c => .str (String.singleton c))
  | _ => .error .typeError

def eqStr (value : Json N) (s : String) : Bool :=
  match value with
  | .str t => t == s
  | _ => false

def resultItem (result : Result N) (key : String) : Except PyErr (Json N) :=
  match result.get? key with
  | some v => .ok v
  | none => .error .keyError

/-! ### Paths -/

/-- `os.path.basename(path)`. -/
def basename (path : String) : String :=
  String.ofList (path.toList.reverse.takeWhile (· ≠ '/')).reverse

/-- `os.path.join(dir, name)`. -/
def join (dir name : String) : String :=
  if name.toList.head? = some '/' then name
  else if dir.toList = [] ∨ dir.toList.getLast? = some '/' then dir ++ name
  else dir ++ "/" ++ name

/-- `name.endswith(".json")`. -/
def isJson (name : String) : Bool := ".json".toList.isSuffixOf name.toList

end GoodCommand.Fio
