/-! Texts are lists of characters. Offsets into a text count the bytes of its encoding, so the
position of a character is the width of what stands before it. -/

namespace FileRoutes

abbrev Text := List Char

namespace Text

/-- Bytes the text takes once encoded. -/
def width : Text → Nat
  | [] => 0
  | c :: t => c.utf8Size + width t

/-- The byte position of `rest` in `whole`, of which it is a final part. -/
def offsetIn (whole rest : Text) : Nat :=
  width whole - width rest

def segments (t : Text) : List Text :=
  t.splitOn '/'

def joinSegments (ts : List Text) : Text :=
  ['/'].intercalate ts

def trimEnd (p : Char → Bool) (t : Text) : Text :=
  (t.reverse.dropWhile p).reverse

def trimSlashes (t : Text) : Text :=
  trimEnd (· == '/') (t.dropWhile (· == '/'))

/-- What follows `start` in a text that begins with it. -/
def after? : (start t : Text) → Option Text
  | [], t => some t
  | _ :: _, [] => none
  | a :: start, c :: t => if a = c then after? start t else none

theorem width_nil : width [] = 0 := rfl

theorem width_cons (c : Char) (t : Text) : width (c :: t) = c.utf8Size + width t := rfl

theorem width_append (s t : Text) : width (s ++ t) = width s + width t := by
  induction s with
  | nil => rw [List.nil_append, width_nil, Nat.zero_add]
  | cons c s ih => rw [List.cons_append, width_cons, width_cons, ih, Nat.add_assoc]

theorem offsetIn_append (before rest : Text) : offsetIn (before ++ rest) rest = width before := by
  simp [offsetIn, width_append]

theorem after?_append (start t : Text) : after? start (start ++ t) = some t := by
  induction start with
  | nil => rfl
  | cons c start ih => simp [after?, ih]

theorem eq_append_of_after? {start t rest : Text} (h : after? start t = some rest) :
    t = start ++ rest := by
  induction start generalizing t with
  | nil => simpa [after?] using h
  | cons a start ih =>
    cases t with
    | nil => simp [after?] at h
    | cons c t =>
      simp only [after?] at h
      split at h
      · next hac => subst hac; simp [ih h]
      · simp at h

end Text

end FileRoutes
