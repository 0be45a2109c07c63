import DocCoverage.Json.Numbers

/-!
# Reading JSON values

`skipValue` passes over a value whatever it is; `readValue` keeps it, with objects in increasing
order of their keys and the last of two members of one name. Nesting is bounded for values that
are kept.
-/
namespace DocCoverage.Json

mutual

def skipValue : (fuel : Nat) → Text → Reading (Unit × Text)
  | 0, _ => .error .unexpectedEnd
  | n + 1, t =>
    match skipSpace t with
    | [] => .error .unexpectedEnd
    | 'n' :: t => readWord "ull" t
    | 't' :: t => readWord "rue" t
    | 'f' :: t => readWord "alse" t
    | '-' :: t => skipNumber t
    | '"' :: t => skipChars (t.length + 1) t
    | '[' :: t => skipItems n false t
    | '\x7b' :: t => skipMembers n false t
    | c :: t => if Text.isAsciiDigit c then skipNumber (c :: t) else .error .malformed

/-- Pass over the items of an array; `more` holds behind an item. -/
def skipItems : (fuel : Nat) → (more : Bool) → Text → Reading (Unit × Text)
  | 0, _, _ => .error .unexpectedEnd
  | n + 1, more, t =>
    match skipSpace t with
    | [] => .error .unexpectedEnd
    | ']' :: t => .ok ((), t)
    | c :: t =>
      if more && c != ',' then .error .malformed
      else do
        let (_, t) ← skipValue n (if more then t else c :: t)
        skipItems n true t

/-- Pass over the members of an object; `more` holds behind a member. -/
def skipMembers : (fuel : Nat) → (more : Bool) → Text → Reading (Unit × Text)
  | 0, _, _ => .error .unexpectedEnd
  | n + 1, more, t =>
    match skipSpace t with
    | [] => .error .unexpectedEnd
    | '\x7d' :: t => .ok ((), t)
    | c :: t =>
      if more && c != ',' then .error .malformed
      else
        match skipSpace (if more then t else c :: t) with
        | [] => .error .unexpectedEnd
        | '"' :: t => do
          let (_, t) ← skipChars (t.length + 1) t
          match skipSpace t with
          | [] => throw .unexpectedEnd
          | ':' :: t =>
            let (_, t) ← skipValue n t
            skipMembers n true t
          | _ => throw .malformed
        | _ => .error .malformed

end

/-- What is wrong with a value of another shape than was asked for. Scalars are read first, and
their own faults win. -/
def mismatch (t : Text) : Fault :=
  let after {α : Type} (r : Reading α) : Fault :=
    match r with
    | .ok _ => .wrongShape
    | .error e => e
  match t with
  | [] => .unexpectedEnd
  | 'n' :: t => after (readWord "ull" t)
  | 't' :: t => after (readWord "rue" t)
  | 'f' :: t => after (readWord "alse" t)
  | '-' :: t => after (readNumber true t)
  | '"' :: t => after (readString t)
  | '[' :: _ => .wrongShape
  | '\x7b' :: _ => .wrongShape
  | c :: t => if Text.isAsciiDigit c then after (readNumber false (c :: t)) else .malformed

def readTextValue (t : Text) : Reading (Text × Text) :=
  match skipSpace t with
  | '"' :: t => readString t
  | t => .error (mismatch t)

def readBoolValue (t : Text) : Reading (Bool × Text) :=
  match skipSpace t with
  | 't' :: t => do
    let (_, t) ← readWord "rue" t
    return (true, t)
  | 'f' :: t => do
    let (_, t) ← readWord "alse" t
    return (false, t)
  | t => .error (mismatch t)

/-- The next item of an array: the text at which it begins, or none at the closing bracket, which
is left in place. -/
def nextItem (more : Bool) (t : Text) : Reading (Option Text × Text) :=
  match skipSpace t with
  | [] => .error .unexpectedEnd
  | ']' :: t => .ok (none, ']' :: t)
  | c :: t =>
    if !more then .ok (some (c :: t), c :: t)
    else if c != ',' then .error .malformed
    else
      match skipSpace t with
      | [] => .error .unexpectedEnd
      | ']' :: _ => .error .malformed
      | t => .ok (some t, t)

/-- The key of the next member of an object, or none at the closing bracket, which is left in
place. -/
def nextKey (more : Bool) (t : Text) : Reading (Option Text × Text) :=
  match skipSpace t with
  | [] => .error .unexpectedEnd
  | '\x7d' :: t => .ok (none, '\x7d' :: t)
  | c :: t =>
    if more && c != ',' then .error .malformed
    else
      match (if more then skipSpace t else c :: t) with
      | [] => .error .unexpectedEnd
      | '"' :: t => do
        let (k, t) ← readString t
        return (some k, t)
      | _ => .error .malformed

def readColon (t : Text) : Reading (Unit × Text) :=
  match skipSpace t with
  | [] => .error .unexpectedEnd
  | ':' :: t => .ok ((), t)
  | _ => .error .malformed

/-- The closing bracket of an array or object that has to end here. -/
def readClose (bracket : Char) (t : Text) : Reading (Unit × Text) :=
  match skipSpace t with
  | [] => .error .unexpectedEnd
  | c :: t => if c == bracket then .ok ((), t) else .error .malformed

/-- The deepest nesting of a value that is kept. -/
def nestLimit : Nat := 127

mutual

/-- A value that is kept, with the nesting levels left for it. -/
def readValue : (fuel levels : Nat) → Text → Reading (Json × Text)
  | 0, _, _ => .error .unexpectedEnd
  | n + 1, levels, t =>
    match skipSpace t with
    | [] => .error .unexpectedEnd
    | 'n' :: t => do
      let (_, t) ← readWord "ull" t
      return (.null, t)
    | 't' :: t => do
      let (_, t) ← readWord "rue" t
      return (.bool true, t)
    | 'f' :: t => do
      let (_, t) ← readWord "alse" t
      return (.bool false, t)
    | '-' :: t => do
      let (x, t) ← readNumber true t
      return (.number x, t)
    | '"' :: t => do
      let (s, t) ← readString t
      return (.text s, t)
    | '[' :: t =>
      match levels with
      | 0 => .error .malformed
      | levels + 1 => do
        let (items, t) ← readItems n levels false t
        return (.array items, t)
    | '\x7b' :: t =>
      match levels with
      | 0 => .error .malformed
      | levels + 1 => do
        let (members, t) ← readMembers n levels [] false t
        return (.object members, t)
    | c :: t =>
      if Text.isAsciiDigit c then do
        let (x, t) ← readNumber false (c :: t)
        return (.number x, t)
      else .error .malformed

/-- The items of an array, with its closing bracket. -/
def readItems : (fuel levels : Nat) → (more : Bool) → Text → Reading (List Json × Text)
  | 0, _, _, _ => .error .unexpectedEnd
  | n + 1, levels, more, t => do
    match ← nextItem more t with
    | (none, t) =>
      let (_, t) ← readClose ']' t
      return ([], t)
    | (some t, _) =>
      let (v, t) ← readValue n levels t
      let (vs, t) ← readItems n levels true t
      return (v :: vs, t)

/-- The members of an object, with its closing bracket, added to those already read. -/
def readMembers : (fuel levels : Nat) → List (Text × Json) → (more : Bool) → Text →
    Reading (List (Text × Json) × Text)
  | 0, _, _, _, _ => .error .unexpectedEnd
  | n + 1, levels, members, more, t => do
    match ← nextKey more t with
    | (none, t) =>
      let (_, t) ← readClose '\x7d' t
      return (members, t)
    | (some k, t) =>
      let (_, t) ← readColon t
      let (v, t) ← readValue n levels t
      readMembers n levels (Text.bind k v members) true t

end

/-- A fuel that no reading of the text uses up. -/
def fuelFor (t : Text) : Nat := 2 * t.length + 2

/-- Nothing but blanks may follow the value of a whole file. -/
def finish {α : Type} (r : Reading (α × Text)) : Reading α := do
  let (v, t) ← r
  if (skipSpace t).isEmpty then return v else throw .malformed

end DocCoverage.Json
