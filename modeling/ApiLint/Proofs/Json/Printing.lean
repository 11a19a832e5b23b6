import ApiLint.Json.Value
import ApiLint.Proofs.Json.Distinct
import ApiLint.Proofs.Json.Escaping

/-!
# Printed values

The text of a value is read as the value, if the value is one that reading can give: no object in it
holds a name twice, it is not nested too deeply, and its numbers are written so that they are read
back. The text is cut into the tokens of the value, these are put together into its tree, and the
tree has the value. A text is always a single line.
-/

namespace ApiLint.Json

namespace Token

def ends (c : Char) : Bool := isSpace c || c == '"' || (ofMark? c).isSome

def Boundary (r : List Char) : Prop := ∀ c ∈ r.head?, ends c

theorem boundary_nil : Boundary [] := by
  simp [Boundary]

theorem boundary_cons {c : Char} (h : ends c) (r : List Char) : Boundary (c :: r) := by
  simpa [Boundary] using h

/-- A text is cut into these tokens, wherever it stands. -/
def Scans (s : List Char) (ts : List Token) : Prop :=
  ∀ found r, Boundary r →
    scanFrom? .between found (s ++ r) = scanFrom? .between (ts.reverse ++ found) r

theorem Scans.append {s s' : List Char} {ts ts' : List Token} (h : Scans s ts)
    (h' : Scans s' ts') (hs : ∀ r, Boundary (s' ++ r)) : Scans (s ++ s') (ts ++ ts') := by
  intro found r hr
  rw [List.append_assoc, h found (s' ++ r) (hs r), h' (ts.reverse ++ found) r hr,
    List.reverse_append, List.append_assoc]

theorem scans_mark {c : Char} {t : Token} (hspace : isSpace c = false) (hquote : c ≠ '"')
    (ht : ofMark? c = some t) : Scans [c] [t] := by
  intro found r _
  simp [scanFrom?, step?, hspace, hquote, ht]

theorem Scans.mark {c : Char} {t : Token} {s : List Char} {ts : List Token} (h : Scans s ts)
    (hspace : isSpace c = false) (hquote : c ≠ '"') (ht : ofMark? c = some t) :
    Scans (c :: s) (t :: ts) := by
  intro found r hr
  have hrest := h (t :: found) r hr
  simp only [List.cons_append, scanFrom?, step?, hspace, hquote, ht, if_false, List.reverse_cons,
    List.append_assoc]
  simpa using hrest

theorem scans_quoted (s : String) : Scans (quotedChars s) [string (some s)] := by
  intro found r _
  have hsplit : quotedChars s ++ r = '"' :: (Quoted.encode s.toList ++ '"' :: r) := by
    simp [quotedChars]
  rw [hsplit, scanFrom?_quotedChars]
  rfl

theorem step?_between_of_inner {c : Char} (h : ends c = false) :
    step? .between c = some ([], .word [c]) := by
  simp only [ends, Bool.or_eq_false_iff, beq_eq_false_iff_ne, Option.isSome_eq_false_iff,
    Option.isNone_iff_eq_none] at h
  obtain ⟨⟨hspace, hquote⟩, hmark⟩ := h
  simp [step?, hspace, hquote, hmark]

theorem step?_word_of_inner {c : Char} (h : ends c = false) (read : List Char) :
    step? (.word read) c = some ([], .word (c :: read)) := by
  simp only [ends, Bool.or_eq_false_iff, beq_eq_false_iff_ne, Option.isSome_eq_false_iff,
    Option.isNone_iff_eq_none] at h
  obtain ⟨⟨hspace, hquote⟩, hmark⟩ := h
  simp [step?, hspace, hquote, hmark]

theorem scanFrom?_word {w : List Char} (h : w.any ends = false) (read : List Char)
    (found : List Token) (r : List Char) : scanFrom? (.word read) found (w ++ r) =
      scanFrom? (.word (w.reverse ++ read)) found r := by
  induction w generalizing read with
  | nil => rfl
  | cons c w ih =>
    obtain ⟨hc, hw⟩ := Bool.or_eq_false_iff.1 h
    rw [List.cons_append, scanFrom?, step?_word_of_inner hc]
    simpa using ih hw (c :: read)

theorem scanFrom?_word_of_boundary {read : List Char} {t : Token}
    (ht : ofWord? read.reverse = some t) (found : List Token) {r : List Char} (hr : Boundary r) :
    scanFrom? (.word read) found r = scanFrom? .between (t :: found) r := by
  cases r with
  | nil => simp [scanFrom?, finish?, ht]
  | cons c r =>
    have hc : ends c := hr c rfl
    simp only [scanFrom?, step?, ht, Option.map_some]
    by_cases hspace : isSpace c
    · simp [hspace]
    by_cases hquote : c = '"'
    · simp [hquote, isSpace]
    cases hmark : ofMark? c with
    | some u => simp [hspace, hquote]
    | none => simp [ends, hspace, hquote, hmark] at hc

theorem scans_word {w : List Char} {t : Token} (ht : ofWord? w = some t)
    (h : w.any ends = false) : Scans w [t] := by
  intro found r hr
  cases w with
  | nil => cases ht
  | cons c w =>
    obtain ⟨hc, hw⟩ := Bool.or_eq_false_iff.1 h
    rw [List.cons_append, scanFrom?, step?_between_of_inner hc]
    simp only [List.reverse_nil, List.nil_append]
    rw [scanFrom?_word hw, scanFrom?_word_of_boundary (by simpa using ht) found hr]
    rfl

end Token

/-- A number that is written as one word, which is read as the number. Reading rounds twice, so that
a floating-point number need not be one. -/
structure Number.Legible (n : Number) : Prop where
  word : Token.ofWord? n.chars = some (.number (some n))
  unbroken : n.chars.any Token.ends = false

example : (Number.int (-9223372036854775808)).Legible := ⟨by decide, by decide⟩

namespace Value

/-- A value that can be read from a text, with containers in it nested at most as deep. -/
inductive Legible : Nat → Value → Prop where
  | null (depth : Nat) : Legible depth .null
  | bool (depth : Nat) (b : Bool) : Legible depth (.bool b)
  | number (depth : Nat) {n : Number} (h : n.Legible) : Legible depth (.number n)
  | string (depth : Nat) (s : String) : Legible depth (.string s)
  | array {depth : Nat} {xs : List Value} (items : ∀ x ∈ xs, Legible depth x) :
    Legible (depth + 1) (.array xs)
  | object {depth : Nat} {ms : Members} (names : (Members.keys ms).Nodup)
    (members : ∀ m ∈ ms, Legible depth m.2) : Legible (depth + 1) (.object ms)

variable {depth : Nat} {v : Value}

mutual

def tokens : Value → List Token
  | .null => [.null]
  | .bool b => [.bool b]
  | .number n => [.number (some n)]
  | .string s => [.string (some s)]
  | .array [] => [.openArray, .closeArray]
  | .array (x :: xs) => .openArray :: (x.tokens ++ itemTokens xs)
  | .object [] => [.openObject, .closeObject]
  | .object ((k, x) :: ms) =>
    .openObject :: .string (some k) :: .colon :: (x.tokens ++ memberTokens ms)

def itemTokens : List Value → List Token
  | [] => [.closeArray]
  | x :: xs => .comma :: (x.tokens ++ itemTokens xs)

def memberTokens : List (String × Value) → List Token
  | [] => [.closeObject]
  | (k, x) :: ms => .comma :: .string (some k) :: .colon :: (x.tokens ++ memberTokens ms)

end

open Token

theorem boundary_itemChars (xs : List Value) (r : List Char) : Boundary (itemChars xs ++ r) := by
  cases xs with
  | nil => exact boundary_cons (by decide) r
  | cons x xs => exact boundary_cons (by decide) _

theorem boundary_memberChars (ms : Members) (r : List Char) :
    Boundary (memberChars ms ++ r) := by
  cases ms with
  | nil => exact boundary_cons (by decide) r
  | cons m ms => exact boundary_cons (by decide) _

theorem scans_itemChars {xs : List Value} (h : ∀ x ∈ xs, Scans x.chars x.tokens) :
    Scans (itemChars xs) (itemTokens xs) := by
  induction xs with
  | nil => exact scans_mark rfl (by decide) rfl
  | cons x xs ih =>
    obtain ⟨hx, hxs⟩ := List.forall_mem_cons.1 h
    exact (hx.append (ih hxs) (boundary_itemChars xs)).mark rfl (by decide) rfl

theorem scans_named {k : String} {s : List Char} {ts : List Token} (h : Scans s ts) :
    Scans (quotedChars k ++ ':' :: s) (.string (some k) :: .colon :: ts) :=
  (scans_quoted k).append (h.mark rfl (by decide) rfl) fun _ => boundary_cons (by decide) _

theorem scans_memberChars {ms : Members} (h : ∀ m ∈ ms, Scans m.2.chars m.2.tokens) :
    Scans (memberChars ms) (memberTokens ms) := by
  induction ms with
  | nil => exact scans_mark rfl (by decide) rfl
  | cons m ms ih =>
    obtain ⟨hm, hms⟩ := List.forall_mem_cons.1 h
    exact (scans_named (hm.append (ih hms) (boundary_memberChars ms))).mark rfl (by decide) rfl

theorem Legible.scans (h : Legible depth v) : Scans v.chars v.tokens := by
  induction h with
  | null => exact scans_word rfl (by decide)
  | bool depth b => cases b <;> exact scans_word rfl (by decide)
  | number depth h => exact scans_word h.word h.unbroken
  | string depth s => exact scans_quoted s
  | @array depth xs items ih =>
    cases xs with
    | nil => exact (scans_mark rfl (by decide) rfl).mark rfl (by decide) rfl
    | cons x xs =>
      obtain ⟨hx, hxs⟩ := List.forall_mem_cons.1 ih
      exact (hx.append (scans_itemChars hxs) (boundary_itemChars xs)).mark rfl (by decide) rfl
  | @object depth ms names members ih =>
    cases ms with
    | nil => exact (scans_mark rfl (by decide) rfl).mark rfl (by decide) rfl
    | cons m ms =>
      obtain ⟨hm, hms⟩ := List.forall_mem_cons.1 ih
      exact (scans_named (hm.append (scans_memberChars hms) (boundary_memberChars ms))).mark
        rfl (by decide) rfl

theorem Legible.scan? (h : Legible depth v) : Token.scan? v.chars = some v.tokens := by
  have hall := h.scans [] [] boundary_nil
  simpa [Token.scan?, scanFrom?, finish?] using hall

theorem line_not_mem_quotedChars (s : String) : '\n' ∉ quotedChars s := by
  have h := Quoted.line_not_mem_encode s.toList
  simpa [quotedChars] using h

theorem line_not_mem_itemChars {xs : List Value} (h : ∀ x ∈ xs, '\n' ∉ x.chars) :
    '\n' ∉ itemChars xs := by
  induction xs with
  | nil => decide
  | cons x xs ih =>
    obtain ⟨hx, hxs⟩ := List.forall_mem_cons.1 h
    simpa [itemChars, hx] using ih hxs

theorem line_not_mem_memberChars {ms : Members} (h : ∀ m ∈ ms, '\n' ∉ m.2.chars) :
    '\n' ∉ memberChars ms := by
  induction ms with
  | nil => decide
  | cons m ms ih =>
    obtain ⟨hm, hms⟩ := List.forall_mem_cons.1 h
    simpa [memberChars, hm, line_not_mem_quotedChars] using ih hms

theorem Legible.line_not_mem_chars (h : Legible depth v) : '\n' ∉ v.chars := by
  induction h with
  | null => decide
  | bool depth b => cases b <;> decide
  | number depth h => exact fun hline => absurd rfl (List.any_eq_false.1 h.unbroken '\n' hline)
  | string depth s => exact line_not_mem_quotedChars s
  | @array depth xs items ih =>
    cases xs with
    | nil => decide
    | cons x xs =>
      obtain ⟨hx, hxs⟩ := List.forall_mem_cons.1 ih
      simpa [chars, hx] using line_not_mem_itemChars hxs
  | @object depth ms names members ih =>
    cases ms with
    | nil => decide
    | cons m ms =>
      obtain ⟨hm, hms⟩ := List.forall_mem_cons.1 ih
      simpa [chars, hm, line_not_mem_quotedChars] using line_not_mem_memberChars hms

mutual

def tree : Value → Tree
  | .null => .null
  | .bool b => .bool b
  | .number n => .number (some n)
  | .string s => .string (some s)
  | .array xs => .array (trees xs)
  | .object ms => .object (namedTrees ms)

def trees : List Value → List Tree
  | [] => []
  | x :: xs => x.tree :: trees xs

def namedTrees : List (String × Value) → List (Option String × Tree)
  | [] => []
  | (k, x) :: ms => (some k, x.tree) :: namedTrees ms

end

open Json.Tree

def Builds (ts : List Token) (t : Tree) : Prop :=
  ∀ stack r, (ts ++ r).foldlM step? (.value stack) = r.foldlM step? (.done t stack)

theorem foldlM_firstItem (v : Value) (stack : List Open) (r : List Token) :
    (v.tokens ++ r).foldlM step? (.firstItem stack) =
      (v.tokens ++ r).foldlM step? (.value (.array [] :: stack)) := by
  match v with
  | .null | .bool _ | .number _ | .string _ | .array [] | .array (_ :: _) | .object []
  | .object (_ :: _) => rfl

theorem foldlM_itemTokens {xs : List Value} (h : ∀ x ∈ xs, Builds x.tokens x.tree) (t : Tree)
    (found : List Tree) (stack : List Open) (r : List Token) :
    (itemTokens xs ++ r).foldlM step? (.done t (.array found :: stack)) =
      r.foldlM step? (.done (.array ((t :: found).reverse ++ trees xs)) stack) := by
  induction xs generalizing t found with
  | nil =>
    rw [trees, List.append_nil]
    rfl
  | cons x xs ih =>
    obtain ⟨hx, hxs⟩ := List.forall_mem_cons.1 h
    have hitem := hx (.array (t :: found) :: stack) (itemTokens xs ++ r)
    rw [itemTokens, List.cons_append, List.append_assoc, List.foldlM_cons]
    refine Eq.trans hitem ?_
    rw [ih hxs, trees, List.reverse_cons, List.append_assoc, List.singleton_append]

theorem foldlM_memberTokens {ms : Members} (h : ∀ m ∈ ms, Builds m.2.tokens m.2.tree) (t : Tree)
    (name : Option String) (found : List (Option String × Tree)) (stack : List Open)
    (r : List Token) :
    (memberTokens ms ++ r).foldlM step? (.done t (.object found name :: stack)) =
      r.foldlM step? (.done (.object (((name, t) :: found).reverse ++ namedTrees ms)) stack) := by
  induction ms generalizing t name found with
  | nil =>
    rw [namedTrees, List.append_nil]
    rfl
  | cons m ms ih =>
    obtain ⟨hm, hms⟩ := List.forall_mem_cons.1 h
    have hmember := hm (.object ((name, t) :: found) (some m.1) :: stack) (memberTokens ms ++ r)
    rw [memberTokens, List.cons_append, List.cons_append, List.cons_append, List.append_assoc,
      List.foldlM_cons]
    refine Eq.trans hmember ?_
    rw [ih hms, namedTrees, List.reverse_cons, List.append_assoc, List.singleton_append]

theorem Legible.builds (h : Legible depth v) : Builds v.tokens v.tree := by
  induction h with
  | null | bool | number | string => exact fun _ _ => rfl
  | @array depth xs items ih =>
    intro stack r
    cases xs with
    | nil => rfl
    | cons x xs =>
      obtain ⟨hx, hxs⟩ := List.forall_mem_cons.1 ih
      have hfirst := foldlM_firstItem x stack (itemTokens xs ++ r)
      rw [tokens, List.cons_append, List.append_assoc, List.foldlM_cons]
      refine Eq.trans hfirst ?_
      rw [hx, foldlM_itemTokens hxs]
      rfl
  | @object depth ms names members ih =>
    intro stack r
    cases ms with
    | nil => rfl
    | cons m ms =>
      obtain ⟨hm, hms⟩ := List.forall_mem_cons.1 ih
      have hfirst := hm (.object [] (some m.1) :: stack) (memberTokens ms ++ r)
      rw [tokens, List.cons_append, List.cons_append, List.cons_append, List.append_assoc,
        List.foldlM_cons]
      refine Eq.trans hfirst ?_
      rw [foldlM_memberTokens hms]
      rfl

theorem Legible.ofTokens? (h : Legible depth v) : Tree.ofTokens? v.tokens = some v.tree := by
  have hall := h.builds [] []
  rw [List.append_nil] at hall
  rw [Tree.ofTokens?, hall]
  rfl

theorem values?_trees {xs : List Value} (h : ∀ x ∈ xs, x.tree.value? depth = some x) :
    values? depth (trees xs) = some xs := by
  induction xs with
  | nil => rfl
  | cons x xs ih =>
    obtain ⟨hx, hxs⟩ := List.forall_mem_cons.1 h
    rw [trees, values?, hx, ih hxs]
    rfl

theorem entries?_namedTrees {ms : Members} (h : ∀ m ∈ ms, m.2.tree.value? depth = some m.2) :
    entries? depth (namedTrees ms) = some ms := by
  induction ms with
  | nil => rfl
  | cons m ms ih =>
    obtain ⟨hm, hms⟩ := List.forall_mem_cons.1 h
    rw [namedTrees, entries?, hm, ih hms]
    rfl

theorem Legible.value?_tree (h : Legible depth v) : v.tree.value? depth = some v := by
  induction h with
  | null | bool | number | string => rfl
  | array items ih => rw [tree, value?, values?_trees ih, Option.map_some]
  | object names members ih =>
    rw [tree, value?, entries?_namedTrees ih, Option.map_some, Members.ofList_eq_self names]

theorem Legible.ofText?_text (h : Legible Tree.depthLimit v) : Value.ofText? v.text = some v := by
  rw [ofText?, text, String.toList_ofList, Tree.ofChars?, h.scan?]
  simp only [Option.bind_eq_bind, Option.bind_some, h.ofTokens?, h.value?_tree]

end Value

end ApiLint.Json
