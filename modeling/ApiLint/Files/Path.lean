import ApiLint.Text.Pieces

/-!
# Paths

A path is text whose segments are parted by slashes. Empty segments and single dots say nothing,
except for a dot in front of a relative path, which is kept. A path that begins with a slash is
absolute.
-/

namespace ApiLint

structure Path where
  text : String
  deriving DecidableEq, Repr

namespace Path

def segments (p : Path) : List (List Char) := Text.split '/' p.text.toList

def ofSegments (segments : List (List Char)) : Path := ⟨String.ofList (Text.join '/' segments)⟩

def isSilent (segment : List Char) : Bool := segment = [] || segment = ['.']

def isAbsolute (p : Path) : Bool := p.text.toList.head? = some '/'

def spoken : List (List Char) → List (List Char)
  | [] => []
  | first :: others => first :: (others.reverse.dropWhile isSilent).reverse

def last? (p : Path) : Option (List Char) :=
  match (spoken p.segments).reverse with
  | [] | [[]] => none
  | last :: _ => some last

def parent? (p : Path) : Option Path :=
  match spoken p.segments with
  | [] | [[]] => none
  | segments =>
    match spoken segments.dropLast with
    | [[]] => some ⟨"/"⟩
    | rest => some (ofSegments rest)

def fileName? (p : Path) : Option (List Char) :=
  match p.last? with
  | some last => if last = ['.'] ∨ last = ['.', '.'] then none else some last
  | none => none

/-- What follows the last dot of the file's name, unless nothing comes before that dot. -/
def extension? (p : Path) : Option String :=
  match p.fileName? with
  | none => none
  | some name =>
    match (Text.split '.' name).reverse with
    | [] | [_] | [_, []] => none
    | after :: _ => some (String.ofList after)

def join (directory p : Path) : Path :=
  if p.isAbsolute then p
  else if directory.text.isEmpty then p
  else if directory.text.toList.getLast? = some '/' then ⟨directory.text ++ p.text⟩
  else ⟨directory.text ++ "/" ++ p.text⟩

/-- The segments of a path that say something, and the first one in any case. Two paths with one
normal form are spellings of one path. -/
def normal (p : Path) : List (List Char) :=
  match p.segments with
  | [] => []
  | first :: others => first :: others.filter fun s => !isSilent s

theorem ofSegments_segments (p : Path) : ofSegments p.segments = p := by
  simp [ofSegments, segments, Text.join_split]

theorem toList_eq_join (p : Path) : p.text.toList = Text.join '/' p.segments := by
  simp [segments, Text.join_split]

theorem spoken_isPrefixOf (segments : List (List Char)) :
    ∃ rest, segments = spoken segments ++ rest := by
  cases segments with
  | nil => exact ⟨[], rfl⟩
  | cons first others =>
    obtain ⟨init, h⟩ := List.dropWhile_suffix (l := others.reverse) isSilent
    refine ⟨init.reverse, ?_⟩
    have := congrArg List.reverse h
    simp only [List.reverse_append, List.reverse_reverse] at this
    simp [spoken, this]

theorem exists_spoken {first second : List Char} {segments others : List (List Char)}
    (h : spoken segments = first :: second :: others) :
    ∃ s ∈ second :: others, isSilent s = false := by
  cases segments with
  | nil => simp [spoken] at h
  | cons x xs =>
    simp only [spoken, List.cons.injEq] at h
    cases hd : xs.reverse.dropWhile isSilent with
    | nil => simp [hd] at h
    | cons s rest =>
      refine ⟨s, ?_, ?_⟩
      · rw [← h.2, hd]; simp
      · have := List.head?_dropWhile_not isSilent xs.reverse
        simpa [hd] using this

theorem length_ofSegments (segments : List (List Char)) :
    (ofSegments segments).text.length = (Text.join '/' segments).length := by
  simp [ofSegments]

theorem length_parent {p q : Path} (h : p.parent? = some q) : q.text.length < p.text.length := by
  obtain ⟨silent, hs⟩ := spoken_isPrefixOf p.segments
  have hp : p.text.length = (Text.join '/' p.segments).length := by
    rw [← toList_eq_join, String.length_toList]
  unfold parent? at h
  cases hS : spoken p.segments with
  | nil => simp [hS] at h
  | cons first others =>
    rw [hS] at hs h
    obtain ⟨more, hm⟩ := spoken_isPrefixOf (first :: others).dropLast
    have hsplit : p.segments = spoken (first :: others).dropLast ++
        (more ++ (first :: others).getLast (by simp) :: silent) := by
      rw [← List.append_assoc, ← hm, List.append_cons, List.dropLast_concat_getLast, hs]
    split at h
    case h_1 heq => cases heq
    case h_2 => cases h
    case h_3 _ _ hroot =>
      split at h
      case h_1 hrest =>
        obtain rfl := Option.some.inj h
        cases others with
        | nil => simp [spoken] at hrest
        | cons second others =>
          obtain ⟨s, hmem, hsaid⟩ := exists_spoken hS
          have hpos : 0 < s.length := by
            cases s with
            | nil => simp [isSilent] at hsaid
            | cons => simp
          have hle := Text.length_le_join '/' (List.mem_append_left silent hmem)
          rw [hp, hs]
          simp only [List.cons_append, Text.join, List.length_append, List.length_cons] at hle ⊢
          have : "/".length = 1 := rfl
          omega
      case h_2 =>
        obtain rfl := Option.some.inj h
        rw [length_ofSegments, hp]
        cases hr : spoken (first :: others).dropLast with
        | nil =>
          have hmem : first ∈ p.segments := by rw [hs]; simp
          have hle := Text.length_le_join '/' hmem
          cases first with
          | cons c first => simp only [Text.join, List.length_cons, List.length_nil] at hle ⊢; omega
          | nil =>
            cases others with
            | nil => exact absurd rfl hroot
            | cons second others => simp [spoken] at hr
        | cons r rest =>
          rw [hsplit, hr]
          exact Text.length_join_append '/' (by simp) (by simp)

theorem join_of_isAbsolute (directory : Path) {p : Path} (h : p.isAbsolute = true) :
    directory.join p = p := by
  simp [join, h]

end Path

end ApiLint
