import ApiLint.Rule.ObjectPropCasing
import Mathlib.Computability.Language

/-!
# The languages of the casings

Each casing admits the names of a regular language: a letter, and after it letters and digits or
segments of them. The casings come down to one another, by the segments that a separator cuts a name
into, by an exchange of separators and by a change of case. Those that start with a small letter
have no name in common with those that start with a capital.
-/

namespace ApiLint.Casing

open Computability

theorem inRange_iff {a b c : Char} : (decide (a ≤ c) && decide (c ≤ b)) = true ↔
    a.toNat ≤ c.toNat ∧ c.toNat ≤ b.toNat := by
  simp only [Bool.and_eq_true, decide_eq_true_eq, Char.le_def, UInt32.le_iff_toNat_le]
  exact Iff.rfl

theorem isLower_iff {c : Char} : isLower c = true ↔ 97 ≤ c.toNat ∧ c.toNat ≤ 122 := inRange_iff

theorem isUpper_iff {c : Char} : isUpper c = true ↔ 65 ≤ c.toNat ∧ c.toNat ≤ 90 := inRange_iff

theorem isDigit_iff {c : Char} : isDigit c = true ↔ 48 ≤ c.toNat ∧ c.toNat ≤ 57 := inRange_iff

theorem toNat_toLower (c : Char) :
    c.toLower.toNat = if isUpper c then c.toNat + 32 else c.toNat := by
  have hiff : isUpper c = true ↔ c.val ≥ 'A'.val ∧ c.val ≤ 'Z'.val := by
    simp only [isUpper, Bool.and_eq_true, decide_eq_true_eq, Char.le_def]
  unfold Char.toLower
  split
  case isTrue h =>
    have hrange := isUpper_iff.1 (hiff.2 h)
    have hsum : (c.val + ('a'.val - 'A'.val)).toNat = (c.toNat + 32) % 2 ^ 32 :=
      UInt32.toNat_add _ _
    rw [if_pos (hiff.2 h)]
    exact hsum.trans (Nat.mod_eq_of_lt (by omega))
  case isFalse h => rw [if_neg (mt hiff.1 h)]

theorem isLower_toLower {c : Char} (h : isLower c = false) : isLower c.toLower = isUpper c := by
  have hlower : ¬ (97 ≤ c.toNat ∧ c.toNat ≤ 122) := mt isLower_iff.2 (by simp [h])
  rw [Bool.eq_iff_iff, isLower_iff, isUpper_iff, toNat_toLower]
  split
  case isTrue hupper =>
    have hrange := isUpper_iff.1 hupper
    omega
  case isFalse hupper =>
    have hrange := mt isUpper_iff.2 hupper
    omega

theorem isDigit_toLower (c : Char) : isDigit c.toLower = isDigit c := by
  rw [Bool.eq_iff_iff, isDigit_iff, isDigit_iff, toNat_toLower]
  split
  case isTrue hupper =>
    have hrange := isUpper_iff.1 hupper
    omega
  case isFalse => exact Iff.rfl

theorem toLower_eq_underscore_iff (c : Char) : c.toLower = '_' ↔ c = '_' := by
  have hcode : '_'.toNat = 95 := rfl
  rw [← Char.toNat_inj, ← Char.toNat_inj, hcode, toNat_toLower]
  split
  case isTrue hupper =>
    have hrange := isUpper_iff.1 hupper
    omega
  case isFalse => exact Iff.rfl

theorem isUpper_toUpper {c : Char} (h : isLower c = true) : isUpper c.toUpper = true := by
  have hrange := isLower_iff.1 h
  have hlower : 'a'.val ≤ c.val ∧ c.val ≤ 'z'.val := by
    simpa only [isLower, Bool.and_eq_true, decide_eq_true_eq, Char.le_def] using h
  -- Going back by 32 is going on by what is left of the 32 bits.
  have hsum : c.toUpper.toNat = (c.toNat + 4294967264) % 2 ^ 32 := by
    unfold Char.toUpper
    rw [dif_pos hlower]
    exact UInt32.toNat_add _ _
  rw [isUpper_iff, hsum]
  omega

def small (c : Char) : Bool := isLower c || isDigit c

def large (c : Char) : Bool := isUpper c || isDigit c

def mixed (c : Char) : Bool := isLower c || isUpper c || isDigit c

theorem small_toLower {c : Char} (h : isLower c = false) : small c.toLower = large c := by
  rw [small, large, isLower_toLower h, isDigit_toLower]

theorem not_isLower_of_large {c : Char} (h : large c = true) : isLower c = false := by
  rw [large, Bool.or_eq_true, isUpper_iff, isDigit_iff] at h
  refine Bool.eq_false_iff.2 fun hlower => ?_
  have hrange := isLower_iff.1 hlower
  omega

theorem not_isLower_of_isUpper {c : Char} (h : isUpper c = true) : isLower c = false :=
  not_isLower_of_large (by rw [large, h, Bool.true_or])

def exchange (c : Char) : Char := if c = '-' then '_' else if c = '_' then '-' else c

theorem exchange_eq_underscore_iff (c : Char) : exchange c = '_' ↔ c = '-' := by
  unfold exchange
  by_cases hyphen : c = '-'
  · simp [hyphen]
  · by_cases underscore : c = '_' <;> simp [hyphen, underscore]

theorem test_exchange {p : Char → Bool} (hyphen : p '-' = false) (underscore : p '_' = false)
    (c : Char) : p (exchange c) = p c := by
  unfold exchange
  split
  case isTrue h => rw [h, hyphen, underscore]
  case isFalse =>
    split
    case isTrue h => rw [h, hyphen, underscore]
    case isFalse => rfl

section Segments

variable {sep : Char} {inner : Char → Bool}

theorem segments_map {f : Char → Char} {sep' : Char} {inner' : Char → Bool} {w : List Char}
    (hsep : ∀ c ∈ w, f c = sep' ↔ c = sep) (hinner : ∀ c ∈ w, inner' (f c) = inner c)
    (opened : Bool) :
    segments sep' inner' opened (w.map f) = segments sep inner opened w := by
  induction w generalizing opened with
  | nil => rfl
  | cons c r ih =>
    obtain ⟨hc, hr⟩ := List.forall_mem_cons.1 hsep
    obtain ⟨hic, hir⟩ := List.forall_mem_cons.1 hinner
    rw [List.map_cons, segments, segments]
    by_cases h : c = sep
    · rw [if_pos (hc.2 h), if_pos h, ih hr hir]
    · rw [if_neg (mt hc.1 h), if_neg h, hic, ih hr hir]

theorem segments_cons (h : inner sep = false) {c : Char} (hc : inner c = true) (r : List Char) :
    segments sep inner true (c :: r) = segments sep inner false r := by
  have hne : c ≠ sep := by
    rintro rfl
    rw [h] at hc
    cases hc
  rw [segments, if_neg hne, hc, Bool.true_and]

theorem eq_or_inner_of_segments {opened : Bool} {w : List Char}
    (h : segments sep inner opened w = true) : ∀ c ∈ w, c = sep ∨ inner c = true := by
  induction w generalizing opened with
  | nil => exact List.forall_mem_nil _
  | cons c r ih =>
    rw [segments] at h
    split at h
    case isTrue hc =>
      exact List.forall_mem_cons.2 ⟨.inl hc, ih (Bool.and_eq_true_iff.1 h).2⟩
    case isFalse =>
      obtain ⟨hc, hr⟩ := Bool.and_eq_true_iff.1 h
      exact List.forall_mem_cons.2 ⟨.inr hc, ih hr⟩

theorem segments_iff (opened : Bool) (w : List Char) : segments sep inner opened w = true ↔
    (∀ segment ∈ w.splitOn sep, ∀ c ∈ segment, inner c = true) ∧
      ∀ segment ∈ if opened then w.splitOn sep else (w.splitOn sep).tail, segment ≠ [] := by
  induction w generalizing opened with
  | nil => cases opened <;> simp [segments, List.splitOn_nil]
  | cons c r ih =>
    rw [segments, List.splitOn_cons_eq_if_modifyHead]
    -- A separator begins a segment; any other character goes in front of the first one of the rest.
    by_cases hc : c = sep
    · cases opened <;> simp [hc, ih]
    · obtain ⟨first, rest, hsplit⟩ := List.exists_cons_of_ne_nil (List.splitOn_ne_nil sep r)
      cases opened <;> simp [hc, ih, hsplit, and_assoc]

end Segments

def oneOf (p : Char → Bool) : Language Char := {w | ∃ c, p c = true ∧ w = [c]}

def someOf (p : Char → Bool) : Language Char := oneOf p * (oneOf p)∗

def segmented (sep : Char) (inner : Char → Bool) : Language Char :=
  (oneOf (· == sep) * someOf inner)∗

def language : Casing → Language Char
  | camel => oneOf isLower * (oneOf mixed)∗
  | pascal => oneOf isUpper * (oneOf mixed)∗
  | snake => oneOf isLower * (oneOf small)∗ * segmented '_' small
  | constant => oneOf isUpper * (oneOf large)∗ * segmented '_' large
  | kebab => oneOf isLower * (oneOf small)∗ * segmented '-' small

section Languages

variable {p inner : Char → Bool} {l : Language Char} {sep c : Char} {r w : List Char}

theorem nil_not_mem_oneOf_mul : [] ∉ oneOf p * l := by
  intro h
  obtain ⟨_, ⟨c, -, rfl⟩, v, -, hnil⟩ := Language.mem_mul.1 h
  cases hnil

theorem cons_mem_oneOf_mul : c :: r ∈ oneOf p * l ↔ p c = true ∧ r ∈ l := by
  rw [Language.mem_mul]
  constructor
  · rintro ⟨_, ⟨d, hd, rfl⟩, v, hv, heq⟩
    obtain ⟨rfl, rfl⟩ := List.cons.inj heq
    exact ⟨hd, hv⟩
  · rintro ⟨hc, hr⟩
    exact ⟨[c], ⟨c, hc, rfl⟩, r, hr, rfl⟩

theorem mem_star_oneOf : w ∈ (oneOf p)∗ ↔ w.all p = true := by
  induction w with
  | nil => simp [Language.nil_mem_kstar]
  | cons c r ih =>
    rw [← Language.one_add_self_mul_kstar_eq_kstar, Language.mem_add, Language.mem_one,
      cons_mem_oneOf_mul, ih]
    simp

/-- A segment goes on, or ends at a separator, after which another one has to begin. -/
theorem star_mul_segmented : (oneOf inner)∗ * segmented sep inner =
    1 + oneOf (· == sep) * (someOf inner * segmented sep inner) +
      oneOf inner * ((oneOf inner)∗ * segmented sep inner) := by
  have hsegmented : segmented sep inner =
      1 + oneOf (· == sep) * (someOf inner * segmented sep inner) := by
    rw [← mul_assoc]
    exact (Language.one_add_self_mul_kstar_eq_kstar _).symm
  calc (oneOf inner)∗ * segmented sep inner
      = (1 + oneOf inner * (oneOf inner)∗) * segmented sep inner := by
        rw [Language.one_add_self_mul_kstar_eq_kstar]
    _ = segmented sep inner + oneOf inner * ((oneOf inner)∗ * segmented sep inner) := by
        rw [add_mul, one_mul, mul_assoc]
    _ = _ := by rw [← hsegmented]

theorem nil_mem_star_mul_segmented : [] ∈ (oneOf inner)∗ * segmented sep inner := by
  rw [star_mul_segmented, Language.mem_add, Language.mem_add, Language.mem_one]
  exact .inl (.inl rfl)

theorem cons_mem_star_mul_segmented : c :: r ∈ (oneOf inner)∗ * segmented sep inner ↔
    (c = sep ∧ r ∈ someOf inner * segmented sep inner) ∨
      (inner c = true ∧ r ∈ (oneOf inner)∗ * segmented sep inner) := by
  rw [star_mul_segmented, Language.mem_add, Language.mem_add, Language.mem_one,
    cons_mem_oneOf_mul, cons_mem_oneOf_mul, ← star_mul_segmented]
  simp

theorem cons_mem_someOf_mul : c :: r ∈ someOf inner * l ↔
    inner c = true ∧ r ∈ (oneOf inner)∗ * l := by
  rw [someOf, mul_assoc, cons_mem_oneOf_mul]

theorem segments_iff_mem (h : inner sep = false) (opened : Bool) :
    segments sep inner opened w = true ↔
      w ∈ (if opened then someOf inner else (oneOf inner)∗) * segmented sep inner := by
  induction w generalizing opened with
  | nil =>
    cases opened with
    | true => simpa [segments, someOf, mul_assoc] using nil_not_mem_oneOf_mul
    | false => simpa [segments] using nil_mem_star_mul_segmented
  | cons c r ih =>
    have hopen := ih true
    have hclosed := ih false
    rw [segments]
    by_cases hc : c = sep
    · subst hc
      cases opened with
      | true => simp [cons_mem_someOf_mul, h]
      | false => simpa [cons_mem_star_mul_segmented, h] using hopen
    · cases opened with
      | true => simpa [cons_mem_someOf_mul, hc] using fun _ => hclosed
      | false => simpa [cons_mem_star_mul_segmented, hc] using fun _ => hclosed

theorem lettered_iff_mem (first inner : Char → Bool) :
    (first c && r.all inner) = true ↔ c :: r ∈ oneOf first * (oneOf inner)∗ := by
  rw [cons_mem_oneOf_mul, mem_star_oneOf, Bool.and_eq_true]

theorem segmented_iff_mem (first : Char → Bool) (h : inner sep = false) :
    (first c && segments sep inner false r) = true ↔
      c :: r ∈ oneOf first * (oneOf inner)∗ * segmented sep inner := by
  have hrest : segments sep inner false r = true ↔ r ∈ (oneOf inner)∗ * segmented sep inner :=
    segments_iff_mem h false
  rw [mul_assoc, cons_mem_oneOf_mul, Bool.and_eq_true, hrest]

theorem matchesChars_iff_mem (casing : Casing) (w : List Char) :
    casing.matchesChars w = true ↔ w ∈ casing.language := by
  cases w with
  | nil =>
    have hmatches : casing.matchesChars [] = false := by cases casing <;> rfl
    have hlanguage : [] ∉ casing.language := by
      cases casing with
      | camel => exact nil_not_mem_oneOf_mul
      | pascal => exact nil_not_mem_oneOf_mul
      | snake | constant | kebab =>
        rw [language, mul_assoc]
        exact nil_not_mem_oneOf_mul
    simp [hmatches, hlanguage]
  | cons c r =>
    cases casing with
    | camel => exact lettered_iff_mem isLower mixed
    | pascal => exact lettered_iff_mem isUpper mixed
    | snake => exact segmented_iff_mem isLower rfl
    | constant => exact segmented_iff_mem isUpper rfl
    | kebab => exact segmented_iff_mem isLower rfl

end Languages

section Names

variable (c : Char) (r : List Char)

theorem camel_cons : camel.matchesChars (c :: r) = (isLower c && r.all mixed) := rfl

theorem pascal_cons : pascal.matchesChars (c :: r) = (isUpper c && r.all mixed) := rfl

theorem snake_cons : snake.matchesChars (c :: r) = (isLower c && segments '_' small false r) := rfl

theorem constant_cons :
    constant.matchesChars (c :: r) = (isUpper c && segments '_' large false r) := rfl

theorem kebab_cons : kebab.matchesChars (c :: r) = (isLower c && segments '-' small false r) := rfl

end Names

theorem snake_iff (w : List Char) : snake.matchesChars w = true ↔
    (∃ c ∈ w.head?, isLower c = true) ∧ ∀ segment ∈ w.splitOn '_', segment ≠ [] ∧
      ∀ c ∈ segment, isLower c = true ∨ isDigit c = true := by
  cases w with
  | nil => simp [matchesChars]
  | cons c r =>
    rw [snake_cons, Bool.and_eq_true]
    simp only [List.head?_cons, Option.mem_some_iff, exists_eq_left']
    refine and_congr_right fun hc => ?_
    -- A small letter begins the first segment.
    have hsmall : small c = true := by rw [small, hc, Bool.true_or]
    rw [← segments_cons rfl hsmall, segments_iff true]
    simp only [small, Bool.or_eq_true, if_true]
    exact ⟨fun h segment hm => ⟨h.2 segment hm, h.1 segment hm⟩,
      fun h => ⟨fun segment hm => (h segment hm).2, fun segment hm => (h segment hm).1⟩⟩

theorem kebab_eq (w : List Char) :
    kebab.matchesChars w = snake.matchesChars (w.map exchange) := by
  cases w with
  | nil => rfl
  | cons c r =>
    have hrest : segments '_' small false (r.map exchange) = segments '-' small false r :=
      segments_map (fun c _ => exchange_eq_underscore_iff c) (fun c _ => test_exchange rfl rfl c) _
    have hfirst : isLower (exchange c) = isLower c := test_exchange rfl rfl c
    rw [List.map_cons, kebab_cons, snake_cons, hfirst, hrest]

theorem snake_map_toLower {w : List Char} (h : ∀ c ∈ w, isLower c = false) :
    snake.matchesChars (w.map Char.toLower) = constant.matchesChars w := by
  cases w with
  | nil => rfl
  | cons c r =>
    obtain ⟨hc, hr⟩ := List.forall_mem_cons.1 h
    have hrest : segments '_' small false (r.map Char.toLower) = segments '_' large false r :=
      segments_map (fun d _ => toLower_eq_underscore_iff d) (fun d hd => small_toLower (hr d hd)) _
    rw [List.map_cons, snake_cons, constant_cons, hrest, isLower_toLower hc]

theorem not_isLower_of_constant {w : List Char} (h : constant.matchesChars w = true) :
    ∀ c ∈ w, isLower c = false := by
  cases w with
  | nil => exact List.forall_mem_nil _
  | cons c r =>
    rw [constant_cons] at h
    obtain ⟨hc, hr⟩ := Bool.and_eq_true_iff.1 h
    refine List.forall_mem_cons.2 ⟨not_isLower_of_isUpper hc, fun d hd => ?_⟩
    rcases eq_or_inner_of_segments hr d hd with rfl | hlarge
    · rfl
    · exact not_isLower_of_large hlarge

theorem constant_iff (w : List Char) : constant.matchesChars w = true ↔
    (∀ c ∈ w, isLower c = false) ∧ snake.matchesChars (w.map Char.toLower) = true := by
  constructor
  · intro h
    have hlower := not_isLower_of_constant h
    exact ⟨hlower, (snake_map_toLower hlower).trans h⟩
  · rintro ⟨hlower, h⟩
    rwa [snake_map_toLower hlower] at h

theorem camel_iff (w : List Char) : camel.matchesChars w = true ↔
    ∃ c r, w = c :: r ∧ isLower c = true ∧ pascal.matchesChars (c.toUpper :: r) = true := by
  cases w with
  | nil => simp [matchesChars]
  | cons c r =>
    rw [camel_cons, Bool.and_eq_true]
    constructor
    · rintro ⟨hc, hr⟩
      exact ⟨c, r, rfl, hc, by rw [pascal_cons, isUpper_toUpper hc, hr, Bool.true_and]⟩
    · rintro ⟨d, t, hw, hd, h⟩
      obtain ⟨rfl, rfl⟩ := List.cons.inj hw
      rw [pascal_cons] at h
      exact ⟨hd, (Bool.and_eq_true_iff.1 h).2⟩

def initial : Casing → Char → Bool
  | pascal | constant => isUpper
  | camel | snake | kebab => isLower

theorem initial_of_matchesChars {casing : Casing} {w : List Char}
    (h : casing.matchesChars w = true) : ∃ c ∈ w.head?, casing.initial c = true := by
  cases w with
  | nil => cases casing <;> cases h
  | cons c r =>
    refine ⟨c, rfl, ?_⟩
    cases casing <;> exact (Bool.and_eq_true_iff.1 h).1

theorem disjoint_of_initial {low high : Casing} (hlow : low.initial = isLower)
    (hhigh : high.initial = isUpper) (w : List Char) :
    ¬ (low.matchesChars w = true ∧ high.matchesChars w = true) := by
  rintro ⟨hl, hh⟩
  obtain ⟨c, hc, hlower⟩ := initial_of_matchesChars hl
  obtain ⟨d, hd, hupper⟩ := initial_of_matchesChars hh
  obtain rfl : c = d := Option.some.inj (hc.symm.trans hd)
  rw [hlow] at hlower
  rw [hhigh] at hupper
  exact Bool.eq_false_iff.1 (not_isLower_of_isUpper hupper) hlower

/-- What the casings admit of a text. -/
structure Characterized (s : String) : Prop where
  language : ∀ casing : Casing, casing.admits s = true ↔ s.toList ∈ casing.language
  snake : Casing.snake.admits s = true ↔ (∃ c ∈ s.toList.head?, isLower c = true) ∧
    ∀ segment ∈ s.toList.splitOn '_', segment ≠ [] ∧
      ∀ c ∈ segment, isLower c = true ∨ isDigit c = true
  kebab : Casing.kebab.admits s = Casing.snake.admits (s.map exchange)
  constant : Casing.constant.admits s = true ↔
    (∀ c ∈ s.toList, isLower c = false) ∧ Casing.snake.admits (s.map Char.toLower) = true
  camel : Casing.camel.admits s = true ↔ ∃ c r, s.toList = c :: r ∧ isLower c = true ∧
    Casing.pascal.admits (String.ofList (c.toUpper :: r)) = true
  disjoint : ∀ low ∈ [Casing.camel, .snake, .kebab], ∀ high ∈ [Casing.pascal, .constant],
    ¬ (low.admits s = true ∧ high.admits s = true)

/-- The casings are the languages that they are said to be. -/
theorem characterized_admits (s : String) : Characterized s where
  language casing := matchesChars_iff_mem casing s.toList
  snake := snake_iff s.toList
  kebab := by
    rw [admits, admits, String.toList_map, kebab_eq]
  constant := by
    rw [admits, admits, String.toList_map, constant_iff]
  camel := by
    simp only [admits, String.toList_ofList]
    exact camel_iff s.toList
  disjoint := by
    have hlow : ∀ low ∈ [Casing.camel, .snake, .kebab], low.initial = isLower := by simp [initial]
    have hhigh : ∀ high ∈ [Casing.pascal, .constant], high.initial = isUpper := by simp [initial]
    exact fun low hl high hh => disjoint_of_initial (hlow low hl) (hhigh high hh) s.toList

example : snake.admits "pet_2_id" = true ∧ snake.admits "pet__id" = false ∧
    snake.admits "pet_id\n" = false := by decide

end ApiLint.Casing
