/-!
# Pieces of text

Texts cut at a character or at the blanks between their words, put together again, and searched for
a piece to replace. The blank characters are those with the Unicode property `White_Space`.
-/

namespace ApiLint.Text

def isBlank (c : Char) : Bool :=
  let n := c.toNat
  (0x9 ≤ n && n ≤ 0xd) || n == 0x20 || n == 0x85 || n == 0xa0 || n == 0x1680 ||
    (0x2000 ≤ n && n ≤ 0x200a) || n == 0x2028 || n == 0x2029 || n == 0x202f || n == 0x205f ||
    n == 0x3000

def isBlankText (s : String) : Bool := s.toList.all isBlank

def trimStart (s : List Char) : List Char := s.dropWhile isBlank

/-- The words of a text, where `word` holds what has been read of the current one, last first. -/
def wordsFrom (word : List Char) : List Char → List (List Char)
  | [] => if word.isEmpty then [] else [word.reverse]
  | c :: r =>
    if isBlank c then
      if word.isEmpty then wordsFrom [] r else word.reverse :: wordsFrom [] r
    else wordsFrom (c :: word) r

def words (s : String) : List (List Char) := wordsFrom [] s.toList

theorem isBlank_of_isWhitespace (c : Char) (h : c.isWhitespace) : isBlank c := by
  simp only [Char.isWhitespace, Bool.or_eq_true, decide_eq_true_eq] at h
  rcases h with ((rfl | rfl) | rfl) | rfl <;> rfl

def split (sep : Char) : List Char → List (List Char)
  | [] => [[]]
  | c :: r =>
    if c = sep then [] :: split sep r
    else match split sep r with
      | piece :: pieces => (c :: piece) :: pieces
      | [] => [[c]]

def join (sep : Char) : List (List Char) → List Char
  | [] => []
  | [piece] => piece
  | piece :: pieces => piece ++ sep :: join sep pieces

/-- `replace`, with the next `skip` characters belonging to a piece that is already replaced. -/
def replaceFrom (old new : List Char) : Nat → List Char → List Char
  | _, [] => []
  | skip + 1, _ :: r => replaceFrom old new skip r
  | 0, c :: r =>
    if old.isPrefixOf (c :: r) then new ++ replaceFrom old new (old.length - 1) r
    else c :: replaceFrom old new 0 r

def replace (old new s : List Char) : List Char := replaceFrom old new 0 s

def startsWith (start s : String) : Bool := start.toList.isPrefixOf s.toList

def endsWith (ending s : String) : Bool := ending.toList.reverse.isPrefixOf s.toList.reverse

def stripStart? : List Char → List Char → Option (List Char)
  | [], s => some s
  | _ :: _, [] => none
  | c :: start, d :: s => if c = d then stripStart? start s else none

theorem split_ne_nil (sep : Char) (s : List Char) : split sep s ≠ [] := by
  cases s with
  | nil => simp [split]
  | cons c r => unfold split; split <;> (try split) <;> simp

theorem join_split (sep : Char) (s : List Char) : join sep (split sep s) = s := by
  induction s with
  | nil => rfl
  | cons c r ih =>
    unfold split
    split
    case isTrue h =>
      cases hr : split sep r with
      | nil => exact absurd hr (split_ne_nil sep r)
      | cons piece pieces => rw [hr] at ih; simp [join, ih, h]
    case isFalse h =>
      cases hr : split sep r with
      | nil => exact absurd hr (split_ne_nil sep r)
      | cons piece pieces =>
        rw [hr] at ih
        cases pieces with
        | nil => simpa [join] using ih
        | cons p ps => simpa [join] using ih

theorem length_le_join (sep : Char) {piece : List Char} {pieces : List (List Char)}
    (h : piece ∈ pieces) : piece.length ≤ (join sep pieces).length := by
  induction pieces with
  | nil => cases h
  | cons p pieces ih =>
    cases pieces with
    | nil => simp only [List.mem_singleton] at h; simp [join, h]
    | cons q pieces =>
      rcases List.mem_cons.1 h with rfl | h
      · simp [join]
      · have := ih h
        simp only [join, List.length_append, List.length_cons]
        omega

theorem length_join_append (sep : Char) {xs ys : List (List Char)} (hx : xs ≠ []) (hy : ys ≠ []) :
    (join sep xs).length < (join sep (xs ++ ys)).length := by
  induction xs with
  | nil => exact absurd rfl hx
  | cons x xs ih =>
    cases xs with
    | nil =>
      cases ys with
      | nil => exact absurd rfl hy
      | cons y ys => simp [join]
    | cons x' xs =>
      have := ih (by simp)
      simp only [List.cons_append, join, List.length_append, List.length_cons] at this ⊢
      omega

theorem stripStart?_append (start s : List Char) : stripStart? start (start ++ s) = some s := by
  induction start with
  | nil => rfl
  | cons c start ih => simp [stripStart?, ih]

end ApiLint.Text
