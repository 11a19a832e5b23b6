import ApiLint.Proofs.Config.Merging
import ApiLint.Proofs.Config.Reading
import Mathlib

/-!
# Flattening what is extended

Loading a file merges at every level: each base with its own bases, and on top of all bases what the
file says itself. The result is what the configurations of all files say that are met on the way,
put on top of one another in one row, in which each file comes after those that it extends.
-/

namespace ApiLint.Config

open Outcome

variable {fs : FileSystem} {path : Path} {c : Config}

/-- The configurations of the files that are met from some paths on, each file after those that it
extends and before those of the next path. A file that is met again is there again. -/
inductive Traversal (fs : FileSystem) : List Path → List Config → Prop where
  | nil : Traversal fs [] []
  | cons {path : Path} {text : String} {own : Config} {paths : List Path}
    {inherited others : List Config} (read : fs.read path = .ok text)
    (parsed : parse? path text = .ok own)
    (bases : Traversal fs (own.bases.map (basePath path)) inherited)
    (rest : Traversal fs paths others) :
    Traversal fs (path :: paths) (inherited ++ own :: others)

theorem Traversal.unique {paths : List Path} {cs ds : List Config} (h : Traversal fs paths cs)
    (h' : Traversal fs paths ds) : cs = ds := by
  induction h generalizing ds with
  | nil => cases h'; rfl
  | cons read parsed _ _ ihbases ihrest =>
    cases h' with
    | cons read' parsed' bases' rest' =>
      obtain rfl := Except.ok.inj (read.symm.trans read')
      obtain rfl := Except.ok.inj (parsed.symm.trans parsed')
      rw [ihbases bases', ihrest rest']

theorem Traversal.prepend {paths : List Path} {cs ds : List Config} (h : Traversal fs [path] cs)
    (h' : Traversal fs paths ds) : Traversal fs (path :: paths) (cs ++ ds) := by
  cases h with
  | cons read parsed bases rest =>
    cases rest
    rw [List.append_assoc]
    exact .cons read parsed bases h'

/-- A configuration says what a row of them says, each put on top of those before it. An ignore list
may still have a name twice. -/
structure Overlays (cs : List Config) (c : Config) : Prop where
  names : c.rules.names = (cs.flatMap fun d => d.rules.names).eraseDups
  nodup : c.rules.names.Nodup
  setting : ∀ name, c.rules.get? name = cs.reverse.findSome? fun d => d.rules.get? name
  ignored : ∀ part, (c.ignore.names part).eraseDups =
    (cs.flatMap fun d => d.ignore.names part).eraseDups

theorem Overlays.mem_ignored {cs : List Config} (h : Overlays cs c) {part : Ignore.Part}
    {name : String} : name ∈ c.ignore.names part ↔ ∃ d ∈ cs, name ∈ d.ignore.names part := by
  rw [← List.mem_eraseDups, h.ignored, List.mem_eraseDups, List.mem_flatMap]

def IgnoresOnce (c : Config) : Prop :=
  ∀ part, (c.ignore.names part).eraseDups = c.ignore.names part

theorem overlays_nil : Overlays [] empty where
  names := rfl
  nodup := List.nodup_nil
  setting _ := rfl
  ignored part := by cases part <;> rfl

theorem ignoresOnce_empty : empty.IgnoresOnce := by
  intro part
  cases part <;> rfl

theorem overlays_singleton (hn : c.rules.names.Nodup) : Overlays [c] c where
  names := by simp [eraseDups_of_nodup hn]
  nodup := hn
  setting name := by simp
  ignored part := by simp

theorem names_ignore_merge (honce : c.IgnoresOnce) (d : Config) (part : Ignore.Part) :
    (c.merge d).ignore.names part = (c.ignore.names part ++ d.ignore.names part).eraseDups := by
  have hunion : (c.merge d).ignore.names part =
      Ignore.union (c.ignore.names part) (d.ignore.names part) := Ignore.names_merge _ _ part
  rw [hunion, ← honce part, Ignore.union_eraseDups, honce part]

theorem IgnoresOnce.merge (honce : c.IgnoresOnce) (d : Config) : (c.merge d).IgnoresOnce := by
  intro part
  rw [names_ignore_merge honce]
  exact eraseDups_append_eraseDups [] _

theorem Overlays.merge {cs ds : List Config} {d : Config} (hc : Overlays cs c)
    (honce : c.IgnoresOnce) (hd : Overlays ds d) : Overlays (cs ++ ds) (c.merge d) where
  names := by
    have hrules : (c.merge d).rules.names = Ignore.union c.rules.names d.rules.names :=
      RuleSet.names_merge _ _
    have hagain : d.rules.names.eraseDups = (ds.flatMap fun e => e.rules.names).eraseDups := by
      rw [eraseDups_of_nodup hd.nodup, hd.names]
    rw [hrules, hc.names, Ignore.union_eraseDups, List.flatMap_append]
    exact Ignore.eraseDups_append_congr rfl hagain
  nodup := RuleSet.nodup_names_merge hc.nodup d.rules
  setting name := by
    have hrules : (c.merge d).rules.get? name = (d.rules.get? name).or (c.rules.get? name) :=
      RuleSet.get?_merge _ hd.nodup name
    rw [hrules, hc.setting, hd.setting, List.reverse_append, List.findSome?_append]
  ignored part := by
    rw [honce.merge d part, names_ignore_merge honce, List.flatMap_append]
    exact Ignore.eraseDups_append_congr (hc.ignored part) (hd.ignored part)

theorem base_eq_ok_iff {load : Path → Except ConfigError Config} {entry : String} :
    base load path entry = .ok c ↔
      Text.isBlankText entry = false ∧ load (basePath path entry) = .ok c := by
  unfold base
  cases Text.isBlankText entry with
  | true => simp
  | false => cases load (basePath path entry) <;> simp

theorem validate_eq_ok_iff {d : Config} : validate path c = .ok d ↔ c = d ∧
    (∀ name ∈ c.rules.names, Text.isBlankText name = false) ∧
    ∀ name ∈ c.ignore.definitions ++ c.ignore.paths, Text.isBlankText name = false := by
  unfold validate
  have hany : ∀ xs : List String, xs.any Text.isBlankText = false ↔
      ∀ x ∈ xs, Text.isBlankText x = false := by
    intro xs
    simp [List.any_eq_false]
  rw [List.forall_mem_append, ← hany, ← hany, ← hany]
  cases c.rules.names.any Text.isBlankText <;>
    cases c.ignore.definitions.any Text.isBlankText <;>
      cases c.ignore.paths.any Text.isBlankText <;> simp

theorem loadFrom_eq {chain : List Target} : loadFrom fs chain path =
    if fs.target path ∈ chain then .error (.cycle path)
    else
      match fs.read path with
      | .error e => .error (.unreadable e)
      | .ok text => (do
        let own ← parse? path text
        let c ← extend (loadFrom fs (fs.target path :: chain)) path own
        validate path c) := by
  rw [loadFrom]
  by_cases hc : fs.target path ∈ chain
  · simp [hc]
  · rw [dif_neg hc, if_neg hc]
    cases fs.read path with
    | error e => rfl
    | ok text => rfl

theorem loadFrom_eq_ok_iff {chain : List Target} : loadFrom fs chain path = .ok c ↔
    fs.target path ∉ chain ∧ ∃ text own, fs.read path = .ok text ∧ parse? path text = .ok own ∧
      ∃ d, extend (loadFrom fs (fs.target path :: chain)) path own = .ok d ∧
        validate path d = .ok c := by
  rw [loadFrom_eq]
  by_cases hc : fs.target path ∈ chain
  · simp [hc]
  · cases ht : fs.read path with
    | error e => simp [hc]
    | ok text => simp [hc, bind_eq_ok_iff]

theorem extend_eq_ok_iff {load : Path → Except ConfigError Config} {own : Config} :
    extend load path own = .ok c ↔ own.bases = [] ∧ own = c ∨ own.bases ≠ [] ∧
      ∃ merged, own.bases.foldlM (fun c entry => c.merge <$> base load path entry) empty =
        .ok merged ∧ merged.merge own = c := by
  unfold extend
  by_cases hb : own.bases = []
  · simp [hb]
  · have hne : own.bases.isEmpty = false := by simpa using hb
    simp only [hb, hne, Bool.false_eq_true, if_false, bind_eq_ok_iff, pure_eq_ok_iff, false_and,
      false_or, ne_eq, not_false_eq_true, true_and]

theorem exists_traversal_of_bases {load : Path → Except ConfigError Config}
    (hload : ∀ p d, load p = .ok d → ∃ ds, Traversal fs [p] ds ∧ Overlays ds d)
    {cs : List Config} (hc : Overlays cs c) (honce : c.IgnoresOnce) {entries : List String}
    {merged : Config}
    (h : entries.foldlM (fun c entry => c.merge <$> base load path entry) c = .ok merged) :
    merged.bases = c.bases ∧ merged.IgnoresOnce ∧
      ∃ ds, Traversal fs (entries.map (basePath path)) ds ∧ Overlays (cs ++ ds) merged := by
  induction entries generalizing c cs with
  | nil =>
    cases h
    exact ⟨rfl, honce, [], .nil, by rwa [List.append_nil]⟩
  | cons entry entries ih =>
    rw [List.foldlM_cons, bind_eq_ok_iff] at h
    obtain ⟨e, he, h⟩ := h
    obtain ⟨d, hd, rfl⟩ := map_eq_ok_iff.1 he
    obtain ⟨ds, hds, hoverlays⟩ := hload _ _ (base_eq_ok_iff.1 hd).2
    obtain ⟨hbases, honce', es, hes, hmerged⟩ :=
      ih (hc.merge honce hoverlays) (honce.merge d) h
    refine ⟨hbases, honce', ds ++ es, hds.prepend hes, ?_⟩
    rwa [← List.append_assoc]

/-- The configuration of a file and what it inherits come to `c`: a row of configurations, in which
every rule stands where it is first mentioned, with the setting that it is given last. -/
structure Flattens (inherited : List Config) (own c : Config) : Prop
    extends Overlays (inherited ++ [own]) c where
  bases : c.bases = []
  mem_ignored : ∀ part name, name ∈ c.ignore.names part ↔
    ∃ d ∈ inherited ++ [own], name ∈ d.ignore.names part
  once : own.bases ≠ [] → ∀ part, c.ignore.names part =
    ((inherited ++ [own]).flatMap fun d => d.ignore.names part).eraseDups
  rules_spoken : ∀ name ∈ c.rules.names, Text.isBlankText name = false
  ignored_spoken : ∀ name ∈ c.ignore.definitions ++ c.ignore.paths,
    Text.isBlankText name = false

theorem exists_flattens {chain : List Target} {path : Path} {c : Config}
    (h : loadFrom fs chain path = .ok c) :
    ∃ inherited own, Traversal fs [path] (inherited ++ [own]) ∧ Flattens inherited own c := by
  obtain ⟨hchain, text, own, ht, ho, d, hd, hv⟩ := loadFrom_eq_ok_iff.1 h
  -- Each base is loaded with one more file in the chain.
  have hload : ∀ p d, loadFrom fs (fs.target path :: chain) p = .ok d →
      ∃ ds, Traversal fs [p] ds ∧ Overlays ds d := by
    intro p d hp
    obtain ⟨inherited, own, htraversal, hflat⟩ := exists_flattens hp
    exact ⟨_, htraversal, hflat.toOverlays⟩
  obtain ⟨rfl, hrules, hignored⟩ := validate_eq_ok_iff.1 hv
  have hown : Overlays [own] own := overlays_singleton (nodup_names_of_parse? ho)
  rcases extend_eq_ok_iff.1 hd with ⟨hnone, rfl⟩ | ⟨hbases, merged, hm, rfl⟩
  · have htraversal : Traversal fs (own.bases.map (basePath path)) [] := by
      rw [hnone]
      exact .nil
    exact ⟨[], own, .cons ht ho htraversal .nil, hown, hnone, fun _ _ => hown.mem_ignored,
      fun hne => absurd hnone hne, hrules, hignored⟩
  · obtain ⟨hempty, honce, inherited, htraversal, hmerged⟩ :=
      exists_traversal_of_bases hload overlays_nil ignoresOnce_empty hm
    have hall : Overlays (inherited ++ [own]) (merged.merge own) := hmerged.merge honce hown
    refine ⟨inherited, own, .cons ht ho htraversal .nil, hall, hempty, fun _ _ => hall.mem_ignored,
      fun _ part => ?_, hrules, hignored⟩
    rw [← honce.merge own part, hall.ignored]
termination_by unchained fs chain
decreasing_by exact unchained_cons hchain ht

/-- Loading a file flattens what it extends. -/
theorem load_flattens (h : load fs path = .ok c) :
    ∃ inherited own, Traversal fs [path] (inherited ++ [own]) ∧
      (∀ cs, Traversal fs [path] cs → cs = inherited ++ [own]) ∧ Flattens inherited own c := by
  obtain ⟨inherited, own, htraversal, hflat⟩ := exists_flattens h
  exact ⟨inherited, own, htraversal, fun cs hcs => hcs.unique htraversal, hflat⟩

theorem read_of_find? {text : String} (h : fs.find? path = .ok (.file text.toUTF8)) :
    fs.read path = .ok text := by
  have hdecoded : String.fromUTF8? text.toUTF8 = some text := dif_pos text.isValidUTF8
  simp only [FileSystem.read, h, bind, Except.bind, hdecoded]

def baseText : String :=
  "\x7b\"rules\":\x7b\"b\":true,\"a\":true\x7d,\"ignore\":\x7b\"paths\":[\"/x\",\"/x\"]\x7d\x7d"

def topText : String :=
  "\x7b\"extends\":[\"base.json\",\"base.json\"],\"rules\":\x7b\"a\":false,\"c\":true\x7d\x7d"

def layered : FileSystem where
  entries := [(["base.json"], .file baseText.toUTF8), (["top.json"], .file topText.toUTF8)]
  current := []

def baseConfig : Config :=
  ⟨[], ⟨[("b", .enabled), ("a", .enabled)]⟩, ⟨[], ["/x", "/x"], fun _ => []⟩⟩

def topConfig : Config :=
  ⟨["base.json", "base.json"], ⟨[("a", .disabled), ("c", .enabled)]⟩, ⟨[], [], fun _ => []⟩⟩

def layeredConfig : Config :=
  ⟨[], ⟨[("b", .enabled), ("a", .disabled), ("c", .enabled)]⟩, ⟨[], ["/x"], fun _ => []⟩⟩

theorem parse?_baseText : parse? ⟨"base.json"⟩ baseText = .ok baseConfig := by
  cbv

theorem parse?_topText : parse? ⟨"top.json"⟩ topText = .ok topConfig := by
  cbv

theorem load_layered : load layered ⟨"top.json"⟩ = .ok layeredConfig := by
  have hbase : loadFrom layered [.found ["top.json"]] ⟨"base.json"⟩ = .ok baseConfig := by
    refine loadFrom_eq_ok_iff.2 ⟨?_, baseText, baseConfig, read_of_find? rfl, parse?_baseText,
      baseConfig, rfl, ?_⟩
    · decide
    · cbv
  have hentry : base (loadFrom layered [.found ["top.json"]]) ⟨"top.json"⟩ "base.json" =
      .ok baseConfig :=
    base_eq_ok_iff.2 ⟨by cbv, hbase⟩
  have hbases : topConfig.bases.foldlM (fun c entry =>
      c.merge <$> base (loadFrom layered [.found ["top.json"]]) ⟨"top.json"⟩ entry) empty =
        .ok ((empty.merge baseConfig).merge baseConfig) := by
    simp only [topConfig, List.foldlM_cons, List.foldlM_nil, hentry]
    rfl
  refine loadFrom_eq_ok_iff.2 ⟨List.not_mem_nil, topText, topConfig, read_of_find? rfl,
    parse?_topText, layeredConfig, ?_, ?_⟩
  · refine extend_eq_ok_iff.2 (.inr ⟨by decide, _, hbases, ?_⟩)
    cbv
  · cbv

theorem load_flattens_layered : load layered ⟨"top.json"⟩ = .ok layeredConfig ∧
    ∃ inherited own, Traversal layered [⟨"top.json"⟩] (inherited ++ [own]) ∧
      (∀ cs, Traversal layered [⟨"top.json"⟩] cs → cs = inherited ++ [own]) ∧
      Flattens inherited own layeredConfig :=
  ⟨load_layered, load_flattens load_layered⟩

end ApiLint.Config
