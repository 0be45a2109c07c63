import DocCoverage.Json.Read

/-!
# Records in JSON files

A record has named fields in a fixed order. It is written as an object, or as an array of its
fields' values, which may stop early. What to do about fields that are missing is left to the
caller.
-/
namespace DocCoverage.Json

structure Shape (α : Type) where
  fields : List Text
  /-- How the value of a field is read. -/
  read : (field : Text) → Text → Reading (α × Text)
  /-- Members of other names are passed over instead of refused. -/
  lenient : Bool

namespace Shape

variable {α : Type} (s : Shape α)

/-- The values of an array, for the given fields at most. -/
def readSequence : (fields : List Text) → (more : Bool) → Text →
    Reading (List (Text × α) × Text)
  | [], _, t => do
    let (_, t) ← readClose ']' t
    return ([], t)
  | f :: fs, more, t => do
    match ← nextItem more t with
    | (none, t) =>
      let (_, t) ← readClose ']' t
      return ([], t)
    | (some t, _) =>
      let (v, t) ← s.read f t
      let (vs, t) ← readSequence fs true t
      return ((f, v) :: vs, t)

/-- The members of an object, added to those already read. A field may stand only once. -/
def readFields : (fuel : Nat) → List (Text × α) → (more : Bool) → Text →
    Reading (List (Text × α) × Text)
  | 0, _, _, _ => .error .unexpectedEnd
  | n + 1, found, more, t => do
    match ← nextKey more t with
    | (none, t) =>
      let (_, t) ← readClose '\x7d' t
      return (found, t)
    | (some k, t) =>
      if s.fields.contains k then
        if (found.lookup k).isSome then throw .wrongShape
        let (_, t) ← readColon t
        let (v, t) ← s.read k t
        readFields n ((k, v) :: found) true t
      else if s.lenient then
        let (_, t) ← readColon t
        let (_, t) ← skipValue (fuelFor t) t
        readFields n found true t
      else throw .wrongShape

/-- The fields of a record that are given. -/
def readRecord (t : Text) : Reading (List (Text × α) × Text) :=
  match skipSpace t with
  | '[' :: t => s.readSequence s.fields false t
  | '\x7b' :: t => s.readFields (t.length + 1) [] false t
  | t => .error (mismatch t)

end Shape

/-- The entries of an object whose values are all of one sort, in increasing order of their keys;
of two entries with one key the last counts. -/
def readEntries {α : Type} (read : Text → Reading (α × Text)) :
    (fuel : Nat) → List (Text × α) → (more : Bool) → Text → Reading (List (Text × α) × Text)
  | 0, _, _, _ => .error .unexpectedEnd
  | n + 1, entries, more, t => do
    match ← nextKey more t with
    | (none, t) =>
      let (_, t) ← readClose '\x7d' t
      return (entries, t)
    | (some k, t) =>
      let (_, t) ← readColon t
      let (v, t) ← read t
      readEntries read n (Text.bind k v entries) true t

/-- An object whose values are all of one sort. -/
def readMap {α : Type} (read : Text → Reading (α × Text)) (t : Text) :
    Reading (List (Text × α) × Text) :=
  match skipSpace t with
  | '\x7b' :: t => readEntries read (t.length + 1) [] false t
  | t => .error (mismatch t)

/-- The items of an array that are all of one sort, with its closing bracket. -/
def readAll {α : Type} (read : Text → Reading (α × Text)) :
    (fuel : Nat) → (more : Bool) → Text → Reading (List α × Text)
  | 0, _, _ => .error .unexpectedEnd
  | n + 1, more, t => do
    match ← nextItem more t with
    | (none, t) =>
      let (_, t) ← readClose ']' t
      return ([], t)
    | (some t, _) =>
      let (v, t) ← read t
      let (vs, t) ← readAll read n true t
      return (v :: vs, t)

def readList {α : Type} (read : Text → Reading (α × Text)) (t : Text) :
    Reading (List α × Text) :=
  match skipSpace t with
  | '[' :: t => readAll read (t.length + 1) false t
  | t => .error (mismatch t)

end DocCoverage.Json
