import ApiLint.Config.Loading
import ApiLint.Proofs.Files.Following

/-!
# The nearest configuration

The search for a configuration goes outwards from a directory, and in each directory through the
names that a configuration may have. So distance counts before preference: a directory is asked for
all of the names before the search leaves it. The search comes to an end because a path gets shorter
each time that its last part is taken away.
-/

namespace ApiLint

def Path.climb (start : Path) : Nat → Option Path
  | 0 => some start
  | n + 1 => (start.climb n).bind Path.parent?

theorem Path.climb_succ_of_parent {start parent : Path} (h : start.parent? = some parent)
    (n : Nat) : start.climb (n + 1) = parent.climb n := by
  induction n with
  | zero => exact h
  | succ n ih => rw [climb, ih, climb]

theorem Path.climb_succ_of_top {start : Path} (h : start.parent? = none) (n : Nat) :
    start.climb (n + 1) = none := by
  induction n with
  | zero => exact h
  | succ n ih => rw [climb, ih, Option.bind_none]

theorem Path.length_climb {start d : Path} {n : Nat} (h : start.climb n = some d) :
    d.text.length + n ≤ start.text.length := by
  induction n generalizing d with
  | zero =>
    obtain rfl := Option.some.inj h
    exact Nat.le_refl _
  | succ n ih =>
    obtain ⟨e, he, hd⟩ := Option.bind_eq_some_iff.1 h
    have hn := ih he
    have hshorter := length_parent hd
    omega

theorem Path.climb_eq_none {start : Path} {n : Nat} (h : start.text.length < n) :
    start.climb n = none := by
  refine Option.eq_none_iff_forall_not_mem.2 fun d hd => ?_
  have hlength := length_climb hd
  omega

namespace Config

variable {fs : FileSystem} {start d p : Path} {name : String}

theorem getElem?_ancestors (start : Path) (n : Nat) : (ancestors start)[n]? = start.climb n := by
  induction n generalizing start with
  | zero =>
    rw [ancestors]
    rfl
  | succ n ih =>
    rw [ancestors, List.getElem?_cons_succ]
    split
    case h_1 parent hparent => rw [ih, Path.climb_succ_of_parent hparent]
    case h_2 htop => rw [Path.climb_succ_of_top htop, List.getElem?_nil]

def Holds (fs : FileSystem) (d : Path) (name : String) : Prop :=
  ∃ bytes, fs.find? (d.join ⟨name⟩) = .ok (.file bytes)

/-- A path is the one of a directory's configurations whose name is preferred. -/
def Preferred (fs : FileSystem) (d p : Path) : Prop :=
  ∃ before name after, fileNames = before ++ name :: after ∧ p = d.join ⟨name⟩ ∧ Holds fs d name ∧
    ∀ other ∈ before, ¬ Holds fs d other

theorem isFile_join_iff : fs.isFile (d.join ⟨name⟩) = true ↔ Holds fs d name := by
  unfold FileSystem.isFile Holds
  split
  case h_1 bytes h => simp [h]
  case h_2 h => simpa using h

theorem inDirectory?_eq_some_iff : inDirectory? fs d = some p ↔ Preferred fs d p := by
  have hfirst : ∀ name, fileNames.find? (fun n => fs.isFile (d.join ⟨n⟩)) = some name ↔
      Holds fs d name ∧ ∃ before after, fileNames = before ++ name :: after ∧
        ∀ other ∈ before, ¬ Holds fs d other := by
    intro name
    simp [List.find?_eq_some_iff_append, ← isFile_join_iff]
  simp only [inDirectory?, candidates, List.find?_map, Option.map_eq_some_iff]
  constructor
  · rintro ⟨name, hname, rfl⟩
    obtain ⟨hholds, before, after, hnames, hbefore⟩ := (hfirst name).1 hname
    exact ⟨before, name, after, hnames, rfl, hholds, hbefore⟩
  · rintro ⟨before, name, after, hnames, rfl, hholds, hbefore⟩
    exact ⟨name, (hfirst name).2 ⟨hholds, before, after, hnames, hbefore⟩, rfl⟩

example : inDirectory? ⟨[([".swaggerlintrc.yml"], .directory), (["swaggerlint.config.yml"],
    .file .empty), ([".swaggerlintrc"], .file .empty)], []⟩ ⟨"/"⟩ = some ⟨"/.swaggerlintrc"⟩ := by
  decide

theorem inDirectory?_eq_none_iff :
    inDirectory? fs d = none ↔ ∀ name ∈ fileNames, ¬ Holds fs d name := by
  simp [inDirectory?, candidates, ← isFile_join_iff]

theorem mem_ancestors_iff : d ∈ ancestors start ↔ ∃ n, start.climb n = some d := by
  simp only [List.mem_iff_getElem?, getElem?_ancestors]

/-- A path is the preferred configuration of a directory around the start, and no directory that is
nearer has any. -/
def Nearest (fs : FileSystem) (start p : Path) : Prop :=
  ∃ n d, start.climb n = some d ∧ Preferred fs d p ∧
    ∀ m < n, ∀ nearer, start.climb m = some nearer → ∀ name ∈ fileNames, ¬ Holds fs nearer name

theorem find?_eq_some_iff : find? fs start = some p ↔ Nearest fs start p := by
  unfold find?
  constructor
  · intro h
    obtain ⟨nearer, d, further, hsplit, hd, hnearer⟩ := List.findSome?_eq_some_iff.1 h
    have hclimb : ∀ n, start.climb n = (nearer ++ d :: further)[n]? := by
      intro n
      rw [← hsplit, getElem?_ancestors]
    refine ⟨nearer.length, d, by simp [hclimb], inDirectory?_eq_some_iff.1 hd, ?_⟩
    intro m hm e he
    rw [hclimb, List.getElem?_append_left hm] at he
    exact inDirectory?_eq_none_iff.1 (hnearer e (List.mem_of_getElem? he))
  · rintro ⟨n, d, hd, hpreferred, hnearer⟩
    rw [← getElem?_ancestors] at hd
    obtain ⟨hn, hget⟩ := List.getElem?_eq_some_iff.1 hd
    have hsplit : ancestors start =
        (ancestors start).take n ++ d :: (ancestors start).drop (n + 1) := by
      rw [← hget, List.getElem_cons_drop, List.take_append_drop]
    refine List.findSome?_eq_some_iff.2 ⟨_, d, _, hsplit, inDirectory?_eq_some_iff.2 hpreferred, ?_⟩
    intro e he
    obtain ⟨m, hm, rfl⟩ := List.mem_take_iff_getElem.1 he
    refine inDirectory?_eq_none_iff.2 (hnearer m (by omega) _ ?_)
    rw [← getElem?_ancestors, List.getElem?_eq_getElem]

theorem exists_find?_iff : (∃ p, find? fs start = some p) ↔
    ∃ n d, start.climb n = some d ∧ ∃ name ∈ fileNames, Holds fs d name := by
  constructor
  · rintro ⟨p, hp⟩
    obtain ⟨n, d, hd, ⟨before, name, after, hnames, -, hholds, -⟩, -⟩ := find?_eq_some_iff.1 hp
    exact ⟨n, d, hd, name, by simp [hnames], hholds⟩
  · rintro ⟨n, d, hd, name, hname, hholds⟩
    refine Option.ne_none_iff_exists'.1 fun h => ?_
    have hnone := List.findSome?_eq_none_iff.1 h d (mem_ancestors_iff.2 ⟨n, hd⟩)
    exact inDirectory?_eq_none_iff.1 hnone name hname hholds

/-- What the search for a configuration comes to. Nothing is left of the start at some time, and a
name stands for what is in the directory itself. -/
structure FindsNearest (fs : FileSystem) (start : Path) : Prop where
  ends : ∀ n, start.text.length < n → start.climb n = none
  holds : ∀ d, ∀ name ∈ fileNames, (Holds fs d name ↔ fs.Contains d name)
  found : (∃ p, find? fs start = some p) ↔
    ∃ n d, start.climb n = some d ∧ ∃ name ∈ fileNames, Holds fs d name
  nearest : ∀ p, find? fs start = some p ↔ Nearest fs start p

theorem isName_of_mem_fileNames (h : name ∈ fileNames) : FileSystem.IsName name := by
  have hall : ∀ name ∈ fileNames, Path.isSilent name.toList = false ∧ name.toList ≠ ['.', '.'] ∧
      '/' ∉ name.toList ∧ name.utf8ByteSize ≤ FileSystem.maxNameSize := by
    decide
  obtain ⟨hspoken, hinside, hwhole, hshort⟩ := hall name h
  exact ⟨hspoken, hinside, hwhole, hshort⟩

theorem finds_nearest (fs : FileSystem) (start : Path) : FindsNearest fs start where
  ends _ := Path.climb_eq_none
  holds d _ hname := FileSystem.find?_join_iff d (isName_of_mem_fileNames hname)
  found := exists_find?_iff
  nearest _ := find?_eq_some_iff

end Config

end ApiLint
