import ApiLint.Proofs.Config.Flattening
import Mathlib.Logic.Relation

/-!
# Files that extend themselves

A file is refused as a cycle exactly when it is met again below itself. The files below which it is
met are the chain that loading carries along. As none of them is in there twice, loading goes no
deeper than there are files.
-/

namespace ApiLint

def ConfigError.cause : ConfigError → ConfigError
  | badBase _ _ reason => reason.cause
  | e => e

namespace Config

open Outcome Relation

variable {fs : FileSystem} {path : Path} {chain : List Target}

def Extends (fs : FileSystem) (p q : Path) : Prop :=
  ∃ text own entry, fs.read p = .ok text ∧ parse? p text = .ok own ∧ entry ∈ own.bases ∧
    q = basePath p entry

/-- From a path on, each of some files extends the next, and the last is one of the others again. -/
structure Loop (fs : FileSystem) (path : Path) (files : List Path) (last : Path) : Prop where
  start : (files ++ [last]).head? = some path
  linked : (files ++ [last]).IsChain (Extends fs)
  again : fs.target last ∈ files.map fs.target

/-- No file that is extended from a path on is extended from itself on. -/
def Acyclic (fs : FileSystem) (path : Path) : Prop :=
  ∀ p q, ReflTransGen (Extends fs) path p → TransGen (Extends fs) p q → fs.target q ≠ fs.target p

/-- Loads a file with its bases to a depth, beyond which something else is given. -/
def loadWithin (fs : FileSystem) (beyond : Path → Except ConfigError Config) :
    Nat → List Target → Path → Except ConfigError Config
  | 0, _, path => beyond path
  | depth + 1, chain, path =>
    if fs.target path ∈ chain then .error (.cycle path)
    else
      match fs.read path with
      | .error e => .error (.unreadable e)
      | .ok text => do
        let own ← parse? path text
        let c ← extend (loadWithin fs beyond depth (fs.target path :: chain)) path own
        validate path c

theorem loadWithin_eq_loadFrom {beyond : Path → Except ConfigError Config} {depth : Nat}
    (h : unchained fs chain < depth) :
    loadWithin fs beyond depth chain path = loadFrom fs chain path := by
  induction depth generalizing chain path with
  | zero => omega
  | succ depth ih =>
    rw [loadWithin, loadFrom_eq]
    by_cases hc : fs.target path ∈ chain
    · simp [hc]
    · cases ht : fs.read path with
      | error e => rfl
      | ok text =>
        have hless : unchained fs (fs.target path :: chain) < depth := by
          have := unchained_cons hc ht
          omega
        have hbases : loadWithin fs beyond depth (fs.target path :: chain) =
            loadFrom fs (fs.target path :: chain) := by
          funext p
          exact ih hless
        rw [hbases]

theorem loadWithin_eq_load (beyond : Path → Except ConfigError Config) :
    loadWithin fs beyond (fs.entries.length + 1) [] path = load fs path := by
  apply loadWithin_eq_loadFrom
  have hle : unchained fs [] ≤ fs.entries.length := List.countP_le_length
  omega

theorem cause_ne_cycle_of_parse? {text : String} {e : ConfigError}
    (h : parse? path text = .error e) (q : Path) : e.cause ≠ .cycle q := by
  unfold parse? at h
  generalize formats path = formats at h
  fun_induction parseAs? path text formats with
  | case1 =>
    cases h
    simp [ConfigError.cause]
  | case2 format =>
    obtain ⟨reason, -, rfl⟩ := mapError_eq_error_iff.1 h
    simp [ConfigError.cause]
  | case3 => cases h
  | case4 _ _ _ _ _ ih => exact ih h

theorem cause_ne_cycle_of_validate {c : Config} {e : ConfigError}
    (h : validate path c = .error e) (q : Path) : e.cause ≠ .cycle q := by
  unfold validate at h
  split_ifs at h <;> cases h <;> simp [ConfigError.cause]

theorem base_eq_cycle_iff {load : Path → Except ConfigError Config} {entry : String} {q : Path} :
    base load path entry = .error (.cycle q) ↔
      Text.isBlankText entry = false ∧ load (basePath path entry) = .error (.cycle q) := by
  unfold base
  cases Text.isBlankText entry with
  | true => simp
  | false =>
    cases load (basePath path entry) with
    | ok c => simp
    | error e => cases e <;> simp [baseError]

theorem mergeBases_eq_ok_iff {load : Path → Except ConfigError Config} {entries : List String}
    {c : Config} :
    (∃ merged, entries.foldlM (fun c entry => c.merge <$> base load path entry) c = .ok merged) ↔
      ∀ entry ∈ entries, ∃ d, base load path entry = .ok d := by
  induction entries generalizing c with
  | nil => simp [pure, Except.pure]
  | cons entry entries ih =>
    simp only [List.foldlM_cons, bind_eq_ok_iff, List.forall_mem_cons]
    constructor
    · rintro ⟨merged, d, hd, h⟩
      obtain ⟨e, he, rfl⟩ := map_eq_ok_iff.1 hd
      exact ⟨⟨e, he⟩, ih.1 ⟨merged, h⟩⟩
    · rintro ⟨⟨e, he⟩, h⟩
      obtain ⟨merged, hm⟩ := (ih (c := c.merge e)).2 h
      exact ⟨merged, c.merge e, map_eq_ok_iff.2 ⟨e, he, rfl⟩, hm⟩

theorem extend_eq_error_iff {load : Path → Except ConfigError Config} {own : Config}
    {e : ConfigError} : extend load path own = .error e ↔
      ∃ before entry after, own.bases = before ++ entry :: after ∧
        (∀ b ∈ before, ∃ c, base load path b = .ok c) ∧ base load path entry = .error e := by
  have hmerge : extend load path own = .error e ↔
      own.bases.foldlM (fun c entry => c.merge <$> base load path entry) empty = .error e := by
    unfold extend
    cases own.bases with
    | nil => simp [pure, Except.pure]
    | cons entry entries => simp [bind_eq_error_iff, pure, Except.pure]
  rw [hmerge, foldlM_eq_error_iff]
  constructor
  · rintro ⟨before, entry, after, c, hbases, hc, he⟩
    exact ⟨before, entry, after, hbases, mergeBases_eq_ok_iff.1 ⟨c, hc⟩, map_eq_error_iff.1 he⟩
  · rintro ⟨before, entry, after, hbases, hall, he⟩
    obtain ⟨c, hc⟩ := mergeBases_eq_ok_iff.2 hall
    exact ⟨before, entry, after, c, hbases, hc, map_eq_error_iff.2 he⟩

/-- Loading a path comes, below the files of the chain, to one that is among them. -/
inductive Meets (fs : FileSystem) : List Target → Path → Path → Prop where
  | again {chain : List Target} {path : Path} (loading : fs.target path ∈ chain) :
    Meets fs chain path path
  | base {chain : List Target} {path q : Path} {text entry : String} {own : Config}
    {before after : List String} (fresh : fs.target path ∉ chain) (read : fs.read path = .ok text)
    (parsed : parse? path text = .ok own) (bases : own.bases = before ++ entry :: after)
    (loaded : ∀ b ∈ before, ∃ c, base (loadFrom fs (fs.target path :: chain)) path b = .ok c)
    (spoken : Text.isBlankText entry = false)
    (rest : Meets fs (fs.target path :: chain) (basePath path entry) q) : Meets fs chain path q

theorem Meets.loadFrom_eq {q : Path} (h : Meets fs chain path q) :
    loadFrom fs chain path = .error (.cycle q) := by
  induction h with
  | again loading => rw [Config.loadFrom_eq, if_pos loading]
  | base fresh read parsed bases loaded spoken _ ih =>
    have hbase := base_eq_cycle_iff.2 ⟨spoken, ih⟩
    have hextend := extend_eq_error_iff.2 ⟨_, _, _, bases, loaded, hbase⟩
    rw [Config.loadFrom_eq, if_neg fresh, read]
    simp only [parsed, hextend, bind, Except.bind]

theorem meets_of_loadFrom {chain : List Target} {path q : Path}
    (h : loadFrom fs chain path = .error (.cycle q)) : Meets fs chain path q := by
  rw [loadFrom_eq] at h
  by_cases hc : fs.target path ∈ chain
  · rw [if_pos hc] at h
    cases h
    exact .again hc
  · rw [if_neg hc] at h
    cases ht : fs.read path with
    | error e => simp [ht] at h
    | ok text =>
      simp only [ht, bind_eq_error_iff] at h
      rcases h with ho | ⟨own, ho, hx | ⟨c, -, hv⟩⟩
      · exact absurd rfl (cause_ne_cycle_of_parse? ho q)
      · obtain ⟨before, entry, after, hbases, hloaded, h⟩ := extend_eq_error_iff.1 hx
        obtain ⟨hspoken, h⟩ := base_eq_cycle_iff.1 h
        exact .base hc ht ho hbases hloaded hspoken (meets_of_loadFrom h)
      · exact absurd rfl (cause_ne_cycle_of_validate hv q)
termination_by unchained fs chain
decreasing_by exact unchained_cons hc ht

theorem loadFrom_eq_cycle_iff {q : Path} :
    loadFrom fs chain path = .error (.cycle q) ↔ Meets fs chain path q :=
  ⟨meets_of_loadFrom, Meets.loadFrom_eq⟩

theorem Meets.exists_chain {q : Path} (h : Meets fs chain path q) :
    ∃ files, (files ++ [q]).head? = some path ∧ (files ++ [q]).IsChain (Extends fs) ∧
      fs.target q ∈ files.map fs.target ++ chain := by
  induction h with
  | again loading => exact ⟨[], rfl, .singleton _, loading⟩
  | @base chain path q text entry own before after fresh read parsed bases loaded spoken rest ih =>
    obtain ⟨files, hstart, hlinked, hagain⟩ := ih
    have hextends : Extends fs path (basePath path entry) :=
      ⟨text, own, entry, read, parsed, by simp [bases], rfl⟩
    refine ⟨path :: files, rfl, ?_, ?_⟩
    · rw [List.cons_append, List.isChain_cons]
      refine ⟨fun p hp => ?_, hlinked⟩
      obtain rfl : basePath path entry = p := by simpa [hstart] using hp
      exact hextends
    · simp only [List.mem_append, List.mem_cons, List.map_cons] at hagain ⊢
      tauto

theorem exists_loop {q : Path} (h : load fs path = .error (.cycle q)) :
    ∃ files, Loop fs path files q := by
  obtain ⟨files, hstart, hlinked, hagain⟩ := (meets_of_loadFrom h).exists_chain
  exact ⟨files, hstart, hlinked, by simpa using hagain⟩

theorem Loop.not_acyclic {files : List Path} {last : Path} (h : Loop fs path files last) :
    ¬ Acyclic fs path := by
  intro hacyclic
  have hpairs : (files ++ [last]).Pairwise (TransGen (Extends fs)) :=
    (h.linked.imp fun _ _ => TransGen.single).pairwise
  obtain ⟨p, hp, heq⟩ := List.mem_map.1 h.again
  have hlast : TransGen (Extends fs) p last :=
    (List.pairwise_append.1 hpairs).2.2 p hp last (List.mem_singleton_self last)
  have hreached : ReflTransGen (Extends fs) path p := by
    obtain ⟨rest, hrest⟩ := List.head?_eq_some_iff.1 h.start
    rw [hrest, List.pairwise_cons] at hpairs
    have hmem : p ∈ path :: rest := by simp [← hrest, hp]
    rcases List.mem_cons.1 hmem with rfl | hmem
    · exact .refl
    · exact (hpairs.1 p hmem).to_reflTransGen
  exact hacyclic p last hreached hlast heq.symm

theorem exists_base_of_extend {load : Path → Except ConfigError Config} {own c : Config}
    (h : extend load path own = .ok c) {entry : String} (he : entry ∈ own.bases) :
    ∃ d, load (basePath path entry) = .ok d := by
  rcases extend_eq_ok_iff.1 h with ⟨hnone, -⟩ | ⟨-, merged, hm, -⟩
  · simp [hnone] at he
  · obtain ⟨d, hd⟩ := mergeBases_eq_ok_iff.1 ⟨merged, hm⟩ entry he
    exact ⟨d, (base_eq_ok_iff.1 hd).2⟩

theorem exists_loadFrom_of_extends {c : Config} (h : loadFrom fs chain path = .ok c) {q : Path}
    (hq : Extends fs path q) : ∃ d, loadFrom fs (fs.target path :: chain) q = .ok d := by
  obtain ⟨-, text, own, ht, ho, d, hd, -⟩ := loadFrom_eq_ok_iff.1 h
  obtain ⟨text', own', entry, ht', ho', he, rfl⟩ := hq
  obtain rfl : text = text' := by simpa [ht] using ht'
  obtain rfl : own = own' := by simpa [ho] using ho'
  exact exists_base_of_extend hd he

theorem loadFrom_ne_ok {files : List Path} {last : Path} {c : Config}
    (hstart : (files ++ [last]).head? = some path) (hlinked : (files ++ [last]).IsChain (Extends fs))
    (hagain : fs.target last ∈ files.map fs.target ++ chain) : loadFrom fs chain path ≠ .ok c := by
  induction files generalizing path chain c with
  | nil =>
    obtain rfl : last = path := by simpa using hstart
    intro hok
    exact (loadFrom_eq_ok_iff.1 hok).1 (by simpa using hagain)
  | cons p files ih =>
    obtain rfl : p = path := by simpa using hstart
    rw [List.cons_append, List.isChain_cons] at hlinked
    obtain ⟨next, hnext⟩ : ∃ next, (files ++ [last]).head? = some next := by
      cases files <;> simp
    intro hok
    obtain ⟨d, hd⟩ := exists_loadFrom_of_extends hok (hlinked.1 next hnext)
    refine ih hnext hlinked.2 ?_ hd
    simp only [List.map_cons, List.cons_append, List.mem_cons, List.mem_append] at hagain ⊢
    tauto

theorem Loop.load_ne_ok {files : List Path} {last : Path} (h : Loop fs path files last)
    (c : Config) : load fs path ≠ .ok c :=
  loadFrom_ne_ok h.start h.linked (by simpa using h.again)

theorem eq_cycle_of_base {load : Path → Except ConfigError Config} {entry : String}
    {e : ConfigError} {q : Path}
    (hload : ∀ d, load (basePath path entry) = .error d → d.cause = .cycle q → d = .cycle q)
    (h : base load path entry = .error e) (he : e.cause = .cycle q) : e = .cycle q := by
  unfold base at h
  cases hb : Text.isBlankText entry with
  | true =>
    simp only [hb, if_true, Except.error.injEq] at h
    subst h
    cases he
  | false =>
    cases hl : load (basePath path entry) with
    | ok c => simp [hb, hl] at h
    | error d =>
      obtain rfl : baseError path entry d = e := by simpa [hb, hl] using h
      cases d with
      | cycle p => exact he
      | _ => cases hload _ hl he

theorem eq_cycle_of_loadFrom {chain : List Target} {path q : Path} {e : ConfigError}
    (h : loadFrom fs chain path = .error e) (he : e.cause = .cycle q) : e = .cycle q := by
  rw [loadFrom_eq] at h
  by_cases hc : fs.target path ∈ chain
  · rw [if_pos hc] at h
    cases h
    exact he
  · rw [if_neg hc] at h
    cases ht : fs.read path with
    | error r =>
      rw [ht] at h
      cases h
      cases he
    | ok text =>
      simp only [ht, bind_eq_error_iff] at h
      rcases h with ho | ⟨own, ho, hx | ⟨c, -, hv⟩⟩
      · exact absurd he (cause_ne_cycle_of_parse? ho q)
      · obtain ⟨before, entry, after, -, -, hb⟩ := extend_eq_error_iff.1 hx
        exact eq_cycle_of_base (fun d hd => eq_cycle_of_loadFrom hd) hb he
      · exact absurd he (cause_ne_cycle_of_validate hv q)
termination_by unchained fs chain
decreasing_by exact unchained_cons hc ht

/-- What loading makes of files that extend one another in a circle. -/
structure RefusesCycles (fs : FileSystem) (path : Path) : Prop where
  /-- No base is deeper than there are files, whatever were loaded there. -/
  ends : ∀ beyond, loadWithin fs beyond (fs.entries.length + 1) [] path = load fs path
  loop : ∀ q, load fs path = .error (.cycle q) → ∃ files, Loop fs path files q
  acyclic : Acyclic fs path → ∀ q, load fs path ≠ .error (.cycle q)
  refused : ∀ files last, Loop fs path files last → ∀ c, load fs path ≠ .ok c
  met : ∀ q, Meets fs [] path q ↔ load fs path = .error (.cycle q)
  bare : ∀ e q, load fs path = .error e → e.cause = .cycle q → e = .cycle q

theorem refusesCycles (fs : FileSystem) (path : Path) : RefusesCycles fs path where
  ends := loadWithin_eq_load
  loop _ h := exists_loop h
  acyclic hacyclic _ h := by
    obtain ⟨files, hloop⟩ := exists_loop h
    exact hloop.not_acyclic hacyclic
  refused _ _ h := h.load_ne_ok
  met _ := loadFrom_eq_cycle_iff.symm
  bare _ _ := eq_cycle_of_loadFrom

end Config

end ApiLint
