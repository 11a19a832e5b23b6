import ApiLint.Document.Reference
import ApiLint.OpenApi.Basic
import ApiLint.Proofs.Text.Replacing
import ApiLint.Swagger.Basic

/-!
# Resolving references

An internal reference is the pointer to its section, a slash, and one segment that stands for the
name of a member. The segment is decoded in one go, so that every name has a segment that stands for
it. As a segment has no slash, the last slash of a reference tells which section it can name.
-/

namespace ApiLint.Reference

open Json

def decode : List Char → List Char
  | '~' :: '1' :: r => '/' :: decode r
  | '~' :: '0' :: r => '~' :: decode r
  | c :: r => c :: decode r
  | [] => []

def escapeChar (c : Char) : List Char :=
  if c = '~' then ['~', '0'] else if c = '/' then ['~', '1'] else [c]

def escape (name : List Char) : List Char := name.flatMap escapeChar

theorem slash_replaced (r : List Char) : Text.replace ['~', '1'] ['/'] ('~' :: '1' :: r) =
    '/' :: Text.replace ['~', '1'] ['/'] r :=
  Text.replace_append_left (by decide) r

theorem tilde_replaced (r : List Char) : Text.replace ['~', '0'] ['~'] ('~' :: '0' :: r) =
    '~' :: Text.replace ['~', '0'] ['~'] r :=
  Text.replace_append_left (by decide) r

theorem not_prefix_of_ne {c d e : Char} {r : List Char} (h : ∀ s, r = e :: s → c ≠ d) :
    ¬ [d, e] <+: c :: r := by
  rintro ⟨s, hs⟩
  obtain ⟨hd, hr⟩ := List.cons.inj hs
  exact h s hr.symm hd.symm

theorem exists_of_replace_eq_zero {r t : List Char}
    (h : Text.replace ['~', '1'] ['/'] r = '0' :: t) : ∃ s, r = '0' :: s := by
  cases r with
  | nil => cases h
  | cons d r =>
    obtain ⟨s, -, hs⟩ | hs := Text.replace_cons_cases (List.cons_ne_nil '~' ['1']) ['/'] d r
    · rw [hs] at h
      cases h
    · rw [hs] at h
      exact ⟨r, by rw [(List.cons.inj h).1]⟩

theorem unescape_eq_decode (segment : List Char) : unescape segment = decode segment := by
  unfold unescape
  fun_induction decode segment with
  | case1 r ih =>
    rw [slash_replaced, Text.replace_cons (by simp), ih]
  | case2 r ih =>
    have hkept : Text.replace ['~', '1'] ['/'] ('~' :: '0' :: r) =
        '~' :: '0' :: Text.replace ['~', '1'] ['/'] r := by
      rw [Text.replace_cons (by simp), Text.replace_cons (by simp)]
    rw [hkept, tilde_replaced, ih]
  | case3 c r hone hzero ih =>
    have hslash : ¬ ['~', '1'] <+: c :: r := not_prefix_of_ne fun s hs hc => hone s hc hs
    have htilde : ¬ ['~', '0'] <+: c :: Text.replace ['~', '1'] ['/'] r := by
      refine not_prefix_of_ne fun t ht hc => ?_
      obtain ⟨s, hs⟩ := exists_of_replace_eq_zero ht
      exact hzero s hc hs
    rw [Text.replace_cons hslash, Text.replace_cons htilde, ih]
  | case4 => rfl

example : unescape "~01~1".toList = "~1/".toList := by decide

theorem decode_cons_of_ne {c : Char} (h : c ≠ '~') (r : List Char) :
    decode (c :: r) = c :: decode r := by
  rw [decode]
  all_goals exact fun _ hc => absurd hc h

theorem decode_escape (name : List Char) : decode (escape name) = name := by
  induction name with
  | nil => rfl
  | cons c r ih =>
    unfold escape at ih ⊢
    rw [List.flatMap_cons]
    by_cases htilde : c = '~'
    · subst htilde
      exact congrArg ('~' :: ·) ih
    · by_cases hslash : c = '/'
      · subst hslash
        exact congrArg ('/' :: ·) ih
      · have hc : escapeChar c = [c] := by rw [escapeChar, if_neg htilde, if_neg hslash]
        rw [hc, List.singleton_append, decode_cons_of_ne htilde, ih]

theorem slash_not_mem_escape (name : List Char) : '/' ∉ escape name := by
  intro h
  obtain ⟨c, -, hc⟩ := List.mem_flatMap.1 h
  unfold escapeChar at hc
  split at hc
  case isTrue => simp at hc
  case isFalse =>
    split at hc
    case isTrue => simp at hc
    case isFalse hslash => exact hslash (List.mem_singleton.1 hc).symm

theorem escape_ne_nil {name : List Char} (h : name ≠ []) : escape name ≠ [] := by
  intro hnil
  have := decode_escape name
  rw [hnil] at this
  exact h this.symm

variable {root : Value} {container : List String} {start reference name : String}

/-- The reference is this start and one more segment, which stands for the name. -/
def Names (start reference name : String) : Prop :=
  ∃ segment : String, reference = start ++ segment ∧ segment ≠ "" ∧ '/' ∉ segment.toList ∧
    name = String.ofList (decode segment.toList)

theorem nameIn?_eq_some_iff :
    nameIn? container reference = some name ↔ Names (pointerTo container) reference name := by
  have hcut : ∀ segment : String, reference = pointerTo container ++ segment ↔
      Text.stripStart? (pointerTo container).toList reference.toList = some segment.toList := by
    intro segment
    rw [Text.stripStart?_eq_some_iff, ← String.toList_append, String.toList_inj]
  constructor
  · intro h
    unfold nameIn? at h
    split at h
    case h_2 => cases h
    case h_1 c r hstrip =>
      split at h
      case isTrue => cases h
      case isFalse hslash =>
        obtain rfl := Option.some.inj h
        refine ⟨String.ofList (c :: r), (hcut _).2 ?_, ?_, ?_, ?_⟩
        · rw [hstrip, String.toList_ofList]
        · simp [← String.toList_eq_nil_iff]
        · simpa using hslash
        · rw [String.toList_ofList, unescape_eq_decode]
  · rintro ⟨segment, hsegment, hne, hslash, rfl⟩
    have hstrip := (hcut segment).1 hsegment
    cases hchars : segment.toList with
    | nil => exact absurd (String.toList_eq_nil_iff.1 hchars) hne
    | cons c r =>
      rw [hchars] at hstrip hslash
      have hnone : ¬ (c :: r).contains '/' = true := by simpa using hslash
      simp only [nameIn?, hstrip, if_neg hnone, unescape_eq_decode]

theorem names_escape (start : String) (h : name ≠ "") :
    Names start (start ++ String.ofList (escape name.toList)) name := by
  refine ⟨_, rfl, ?_, ?_, ?_⟩
  · intro hempty
    refine escape_ne_nil (fun hnil => h (String.toList_eq_nil_iff.1 hnil)) ?_
    rw [← String.toList_ofList (l := escape name.toList), hempty]
    rfl
  · rw [String.toList_ofList]
    exact slash_not_mem_escape _
  · rw [String.toList_ofList, decode_escape, String.ofList_toList]

theorem Names.start_eq {before before' other : String}
    (h : Names (before ++ "/") reference name) (h' : Names (before' ++ "/") reference other) :
    before = before' := by
  obtain ⟨s, rfl, -, hs, -⟩ := h
  obtain ⟨t, heq, -, ht, -⟩ := h'
  have hchars : before.toList ++ '/' :: s.toList = before'.toList ++ '/' :: t.toList := by
    simpa [String.toList_append] using congrArg String.toList heq
  rw [Text.eq_of_append_cons_eq hs ht hchars] at hchars
  exact String.toList_inj.1 (List.append_cancel_right hchars)

def Points (root : Value) (container : List String) (start reference name : String)
    (node : Value) : Prop :=
  Names start reference name ∧
    ∃ ms : Members, root.descend? container = some (.object ms) ∧ ms.get? name = some node

theorem member_eq_some_iff {node : Value} :
    root.descend? container >>= (·.get? name) = some node ↔
      ∃ ms : Members, root.descend? container = some (.object ms) ∧ ms.get? name = some node := by
  simp only [Option.bind_eq_bind, Option.bind_eq_some_iff]
  constructor
  · rintro ⟨v, hv, hnode⟩
    cases v with
    | object ms => exact ⟨ms, hv, hnode⟩
    | _ => cases hnode
  · rintro ⟨ms, hms, hnode⟩
    exact ⟨_, hms, hnode⟩

theorem isInternal_iff : isInternal reference = true ↔ reference.toList.head? = some '#' := by
  have hchars : "#".toList = ['#'] := rfl
  rw [isInternal, Text.startsWith, hchars, List.isPrefixOf_iff_prefix]
  cases reference.toList with
  | nil => simp
  | cons c r =>
    rw [List.cons_prefix_cons, List.head?_cons, Option.some.injEq]
    exact ⟨fun h => h.1.symm, fun h => ⟨h.symm, List.nil_prefix⟩⟩

theorem head?_of_names (h : Names (pointerTo container) reference name) :
    reference.toList.head? = some '#' := by
  obtain ⟨segment, rfl, -⟩ := h
  rw [String.toList_append, pointerTo, String.toList_ofList]
  rfl

theorem resolve_eq_external_iff :
    resolve root container reference = .external ↔ reference.toList.head? ≠ some '#' := by
  rw [Ne, ← isInternal_iff, resolve]
  split
  case isFalse hexternal => simp [hexternal]
  case isTrue hinternal =>
    simp only [hinternal, not_true_eq_false, iff_false]
    split
    case h_1 => split <;> exact fun h => nomatch h
    case h_2 => exact fun h => nomatch h

theorem resolve_eq_internal_iff {location : Location} {node : Value} :
    resolve root container reference = .internal name location node ↔
      Points root container (pointerTo container) reference name node ∧
        location = ⟨container ++ [name]⟩ := by
  constructor
  · intro h
    obtain ⟨rfl, -⟩ := resolve_eq_internal h
    unfold resolve at h
    split at h
    case isFalse => cases h
    case isTrue =>
      split at h
      case h_2 => cases h
      case h_1 hname =>
        split at h
        case h_2 => cases h
        case h_1 hnode =>
          cases h
          exact ⟨⟨nameIn?_eq_some_iff.1 hname, member_eq_some_iff.1 hnode⟩, rfl⟩
  · rintro ⟨⟨hname, hmember⟩, rfl⟩
    have hnode := member_eq_some_iff.2 hmember
    simp only [resolve, isInternal_iff.2 (head?_of_names hname), if_true,
      nameIn?_eq_some_iff.2 hname, hnode]

theorem resolve_eq_unresolved_iff :
    resolve root container reference = .unresolved ↔ reference.toList.head? = some '#' ∧
      ∀ name node, ¬ Points root container (pointerTo container) reference name node := by
  cases h : resolve root container reference with
  | external => simp [resolve_eq_external_iff.1 h]
  | internal name location node =>
    have hpoints := (resolve_eq_internal_iff.1 h).1
    simp only [reduceCtorEq, false_iff, not_and, not_forall, not_not]
    exact fun _ => ⟨name, node, hpoints⟩
  | unresolved =>
    simp only [true_iff]
    constructor
    · by_contra hhead
      rw [resolve_eq_external_iff.2 hhead] at h
      cases h
    · intro name node hpoints
      rw [resolve_eq_internal_iff.2 ⟨hpoints, rfl⟩] at h
      cases h

/-- What is made of references to the members of a container, which begin with `start`. -/
structure Exact (root : Value) (container : List String) (start : String) : Prop where
  external : ∀ reference,
    resolve root container reference = .external ↔ reference.toList.head? ≠ some '#'
  internal : ∀ reference name location node,
    resolve root container reference = .internal name location node ↔
      Points root container start reference name node ∧ location = ⟨container ++ [name]⟩
  unresolved : ∀ reference, resolve root container reference = .unresolved ↔
    reference.toList.head? = some '#' ∧
      ∀ name node, ¬ Points root container start reference name node
  escaped : ∀ (ms : Members) name node, root.descend? container = some (.object ms) →
    ms.get? name = some node → name ≠ "" →
    resolve root container (start ++ String.ofList (escape name.toList)) =
      .internal name ⟨container ++ [name]⟩ node

theorem exact_of_pointerTo (root : Value) (h : pointerTo container = start) :
    Exact root container start where
  external _ := resolve_eq_external_iff
  internal _ _ _ _ := h ▸ resolve_eq_internal_iff
  unresolved _ := h ▸ resolve_eq_unresolved_iff
  escaped ms name node hms hnode hname := by
    refine resolve_eq_internal_iff.2 ⟨⟨?_, ms, hms, hnode⟩, rfl⟩
    rw [h]
    exact names_escape start hname

def Resolves (root : Value) (container : List String) (reference : String) : Prop :=
  ∃ name location node, resolve root container reference = .internal name location node

theorem eq_of_resolves {container' : List String} {before before' : String}
    (hs : Exact root container (before ++ "/")) (ht : Exact root container' (before' ++ "/"))
    (h : Resolves root container reference) (h' : Resolves root container' reference) :
    before = before' := by
  obtain ⟨name, location, node, hname⟩ := h
  obtain ⟨name', location', node', hname'⟩ := h'
  obtain ⟨⟨hnames, -⟩, -⟩ := (hs.internal _ _ _ _).1 hname
  obtain ⟨⟨hnames', -⟩, -⟩ := (ht.internal _ _ _ _).1 hname'
  exact hnames.start_eq hnames'

theorem swagger_exact (root : Value) (s : Swagger.Section) :
    Exact root s.container ("#/" ++ s.key ++ "/") := by
  apply exact_of_pointerTo
  cases s <;> decide

theorem openApi_exact (root : Value) (s : OpenApi.Section) :
    Exact root s.container ("#/components/" ++ s.key ++ "/") := by
  apply exact_of_pointerTo
  cases s <;> decide

theorem resolve_exact (root : Value) :
    (∀ s : Swagger.Section, Exact root s.container ("#/" ++ s.key ++ "/")) ∧
    (∀ s : OpenApi.Section, Exact root s.container ("#/components/" ++ s.key ++ "/")) ∧
    (∀ reference (s t : Swagger.Section), Resolves root s.container reference →
      Resolves root t.container reference → s = t) ∧
    ∀ reference (s t : OpenApi.Section), Resolves root s.container reference →
      Resolves root t.container reference → s = t := by
  refine ⟨swagger_exact root, openApi_exact root, ?_, ?_⟩
  · intro reference s t hs ht
    have hkeys := eq_of_resolves (swagger_exact root s) (swagger_exact root t) hs ht
    have hkey : s.key = t.key := (String.append_right_inj _).1 hkeys
    revert hkey
    cases s <;> cases t <;> decide
  · intro reference s t hs ht
    have hkeys := eq_of_resolves (openApi_exact root s) (openApi_exact root t) hs ht
    have hkey : s.key = t.key := (String.append_right_inj _).1 hkeys
    exact Option.some.inj (by rw [← s.ofKey?_key, hkey, t.ofKey?_key])

end ApiLint.Reference
