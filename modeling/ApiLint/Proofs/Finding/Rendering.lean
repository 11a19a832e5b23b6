import ApiLint.Finding.Basic
import ApiLint.Proofs.Json.Reordering
import ApiLint.Proofs.Text.Replacing

/-!
# What is put into templates

A template is rendered by one replacement after the other, each in all that the ones before have
left. So a text that has been put in may be taken for a placeholder. Where no text opens one, every
placeholder of the template is replaced by its own value, and no other is found.
-/

namespace ApiLint

open Json

namespace Template

/-- Nothing opens a placeholder in the text, and what follows it does not either with its end. -/
def Inert (s : List Char) : Prop := ¬ ['\x7b', '\x7b'] <:+: s ++ ['\x7b']

instance (s : List Char) : Decidable (Inert s) := inferInstanceAs (Decidable (¬ _))

theorem inert_cons_iff {c : Char} {s : List Char} :
    Inert (c :: s) ↔ ¬ ['\x7b', '\x7b'] <+: c :: (s ++ ['\x7b']) ∧ Inert s := by
  rw [Inert, List.cons_append, List.infix_cons_iff, not_or]
  rfl

theorem inert_of_not_mem {s : List Char} (h : '\x7b' ∉ s) : Inert s := by
  induction s with
  | nil => decide
  | cons c s ih =>
    rw [List.mem_cons, not_or] at h
    exact inert_cons_iff.2 ⟨fun hopen => h.1 (List.cons_prefix_cons.1 hopen).1, ih h.2⟩

theorem inert_cons_of_not_mem {c : Char} {s : List Char} (h : '\x7b' ∉ c :: s) :
    Inert ('\x7b' :: c :: s) := by
  refine inert_cons_iff.2 ⟨fun hopen => ?_, inert_of_not_mem h⟩
  obtain ⟨hc, -⟩ := List.cons_prefix_cons.1 (List.cons_prefix_cons.1 hopen).2
  exact h (hc ▸ List.mem_cons_self)

variable {new s t : List Char} {key other : String}

theorem placeholder_ne_nil (key : String) : placeholder key ≠ [] := List.cons_ne_nil _ _

theorem placeholder_append (key : String) (t : List Char) : placeholder key ++ t =
    '\x7b' :: '\x7b' :: (key.toList ++ '\x7d' :: '\x7d' :: t) := by
  simp [placeholder]

theorem replace_inert (key : String) (new : List Char) (h : Inert s) (t : List Char) :
    Text.replace (placeholder key) new (s ++ t) = s ++ Text.replace (placeholder key) new t := by
  induction s with
  | nil => rfl
  | cons c s ih =>
    obtain ⟨hopen, hs⟩ := inert_cons_iff.1 h
    have hnone : ¬ placeholder key <+: c :: (s ++ t) := by
      intro hfound
      obtain ⟨hc, hrest⟩ := List.cons_prefix_cons.1 hfound
      cases s with
      | nil => exact hopen (by simp [← hc])
      | cons d s =>
        obtain ⟨hd, -⟩ := List.cons_prefix_cons.1 hrest
        exact hopen (by simp [← hc, ← hd])
    rw [List.cons_append, Text.replace_cons hnone, ih hs]
    rfl

theorem eq_of_prefix_placeholder (hkey : '\x7d' ∉ key.toList) (hother : '\x7d' ∉ other.toList)
    (h : placeholder key <+: placeholder other ++ t) : key = other := by
  rw [placeholder_append, placeholder] at h
  -- The first closing brace tells where a key ends.
  have hkeys := (List.cons_prefix_cons.1 (List.cons_prefix_cons.1 h).2).2
  exact String.toList_inj.1 (Text.eq_of_prefix_append_cons hkey hother hkeys)

theorem replace_placeholder_self (key : String) (new t : List Char) :
    Text.replace (placeholder key) new (placeholder key ++ t) =
      new ++ Text.replace (placeholder key) new t :=
  Text.replace_append_left (placeholder_ne_nil key) t

theorem replace_placeholder_of_ne (hne : key ≠ other) (hkey : '\x7d' ∉ key.toList)
    (hopen : '\x7b' ∉ other.toList) (hclose : '\x7d' ∉ other.toList) (new t : List Char) :
    Text.replace (placeholder key) new (placeholder other ++ t) =
      placeholder other ++ Text.replace (placeholder key) new t := by
  have hnone : ¬ placeholder key <+: placeholder other ++ t := fun h =>
    hne (eq_of_prefix_placeholder hkey hclose h)
  have hinert : Inert ('\x7b' :: (other.toList ++ ['\x7d', '\x7d'])) := by
    cases hother : other.toList with
    | nil => decide
    | cons c r =>
      rw [hother] at hopen
      refine inert_cons_of_not_mem ?_
      change '\x7b' ∉ (c :: r) ++ ['\x7d', '\x7d']
      rw [List.mem_append, not_or]
      exact ⟨hopen, by decide⟩
  have hinside := replace_inert key new hinert t
  have hsplit : placeholder other ++ t =
      '\x7b' :: ('\x7b' :: (other.toList ++ ['\x7d', '\x7d']) ++ t) := rfl
  rw [hsplit] at hnone ⊢
  rw [Text.replace_cons hnone, hinside]
  rfl

inductive Piece where
  | text (chars : List Char)
  | hole (key : String)

namespace Piece

def chars : Piece → List Char
  | text s => s
  | hole key => placeholder key

/-- A text opens no placeholder, and a key has no braces. -/
def Sound : Piece → Prop
  | text s => Inert s
  | hole key => '\x7b' ∉ key.toList ∧ '\x7d' ∉ key.toList

def fill (key : String) (new : List Char) : Piece → Piece
  | text s => text s
  | hole other => if other = key then text new else hole other

def rendered (data : Members) : Piece → List Char
  | text s => s
  | hole key =>
    match data.get? key with
    | some v => insertion v
    | none => placeholder key

end Piece

def assemble (pieces : List Piece) : List Char := pieces.flatMap Piece.chars

def substitute (pieces : List Piece) (data : Members) : List Char :=
  pieces.flatMap (Piece.rendered data)

/-- Nothing that is put in can be taken for a placeholder. -/
structure Unmistakable (pieces : List Piece) (data : Members) : Prop where
  sound : ∀ p ∈ pieces, p.Sound
  keys : ∀ m ∈ data, '\x7d' ∉ m.1.toList
  inserted : ∀ key v, .hole key ∈ pieces → data.get? key = some v → Inert (insertion v)

theorem replace_assemble {pieces : List Piece} (hsound : ∀ p ∈ pieces, p.Sound)
    (hkey : '\x7d' ∉ key.toList) (new : List Char) :
    Text.replace (placeholder key) new (assemble pieces) =
      assemble (pieces.map (Piece.fill key new)) := by
  induction pieces with
  | nil => rfl
  | cons p pieces ih =>
    obtain ⟨hp, hpieces⟩ := List.forall_mem_cons.1 hsound
    have hrest := ih hpieces
    unfold assemble at hrest ⊢
    rw [List.map_cons, List.flatMap_cons, List.flatMap_cons, ← hrest]
    cases p with
    | text s => exact replace_inert key new hp _
    | hole other =>
      by_cases hother : other = key
      · subst hother
        rw [Piece.fill, if_pos rfl]
        exact replace_placeholder_self other new _
      · rw [Piece.fill, if_neg hother]
        exact replace_placeholder_of_ne (Ne.symm hother) hkey hp.1 hp.2 new _

theorem rendered_fill (key : String) (v : Value) (data : Members) (p : Piece) :
    (p.fill key (insertion v)).rendered data = p.rendered ((key, v) :: data) := by
  cases p with
  | text s => rfl
  | hole other =>
    by_cases hother : other = key
    · rw [Piece.fill, if_pos hother, Piece.rendered, Piece.rendered, hother, Members.get?_cons]
      simp
    · rw [Piece.fill, if_neg hother, Piece.rendered, Piece.rendered, Members.get?_cons]
      simp [hother]

theorem Unmistakable.fill {pieces : List Piece} {m : String × Value} {data : Members}
    (h : Unmistakable pieces (m :: data)) :
    Unmistakable (pieces.map (Piece.fill m.1 (insertion m.2))) data where
  sound := by
    intro p hp
    obtain ⟨q, hq, rfl⟩ := List.mem_map.1 hp
    cases q with
    | text s => exact h.sound _ hq
    | hole other =>
      by_cases hother : other = m.1
      · rw [Piece.fill, if_pos hother]
        refine h.inserted m.1 m.2 (hother ▸ hq) ?_
        rw [Members.get?_cons, beq_self_eq_true, if_pos rfl]
      · rw [Piece.fill, if_neg hother]
        exact h.sound _ hq
  keys := (List.forall_mem_cons.1 h.keys).2
  inserted key v hhole hv := by
    obtain ⟨q, hq, hfill⟩ := List.mem_map.1 hhole
    cases q with
    | text s => cases hfill
    | hole other =>
      rw [Piece.fill] at hfill
      split at hfill
      case isTrue => cases hfill
      case isFalse hother =>
        obtain rfl := Piece.hole.inj hfill
        refine h.inserted _ v hq ?_
        rw [Members.get?_cons, if_neg (by simpa using hother), hv]

theorem renderChars_eq_substitute {pieces : List Piece} {data : Members}
    (h : Unmistakable pieces data) :
    renderChars (assemble pieces) data = substitute pieces data := by
  -- Each entry turns its holes into texts, and leaves a template for the entries after it.
  induction data generalizing pieces with
  | nil =>
    refine List.flatMap_congr fun p _ => ?_
    cases p <;> rfl
  | cons m data ih =>
    rw [renderChars, List.foldl_cons, replace_assemble h.sound (List.forall_mem_cons.1 h.keys).1]
    refine (ih h.fill).trans ?_
    rw [substitute, List.flatMap_map]
    exact List.flatMap_congr fun p _ => rendered_fill m.1 m.2 data p

theorem substitute_congr {pieces : List Piece} {data data' : Members}
    (h : ∀ key, data.get? key = data'.get? key) :
    substitute pieces data = substitute pieces data' := by
  refine List.flatMap_congr fun p _ => ?_
  cases p with
  | text s => rfl
  | hole key => rw [Piece.rendered, Piece.rendered, h]

theorem Unmistakable.of_perm {pieces : List Piece} {data data' : Members}
    (h : Unmistakable pieces data) (hnodup : data.keys.Nodup) (hperm : data'.Perm data) :
    Unmistakable pieces data' where
  sound := h.sound
  keys m hm := h.keys m (hperm.mem_iff.1 hm)
  inserted key v hhole hv := h.inserted key v hhole
    (by rwa [Members.get?_of_perm hnodup hperm] at hv)

end Template

end ApiLint
