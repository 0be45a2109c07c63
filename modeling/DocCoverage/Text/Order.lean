import DocCoverage.Text.Basic

/-!
# Texts in order

Texts are ordered character by character, which is also the order of their UTF-8 bytes. Sets of
texts are strictly increasing lists and maps are lists of pairs with strictly increasing keys.
-/
namespace DocCoverage.Text

def lt : Text → Text → Bool
  | _, [] => false
  | [], _ :: _ => true
  | c :: s, d :: t => c < d || (c == d && lt s t)

/-- Put a text into a strictly increasing list. -/
def insert (t : Text) : List Text → List Text
  | [] => [t]
  | u :: us => if lt t u then t :: u :: us else if t == u then u :: us else u :: insert t us

/-- The distinct texts of a list in increasing order. -/
def sorted (ts : List Text) : List Text := ts.foldl (fun s t => insert t s) []

/-- Bind a key in a list of pairs with strictly increasing keys; an old binding is replaced. -/
def bind {α : Type} (k : Text) (v : α) : List (Text × α) → List (Text × α)
  | [] => [(k, v)]
  | (l, w) :: rest =>
    if lt k l then (k, v) :: (l, w) :: rest
    else if k == l then (k, v) :: rest
    else (l, w) :: bind k v rest

end DocCoverage.Text
