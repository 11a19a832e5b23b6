import ApiLint.Files.FileSystem
import ApiLint.Proofs.Outcome

/-!
# Following paths

A path is followed one segment after the other, and the links on the way are counted. So it can be
cut between any two segments: it leads where its end leads from the place that its beginning leads
to. A name that is put at the end of a path to a directory leads to a file exactly if that directory
has a file of this name, or a link of this name that leads on to a file.
-/

namespace ApiLint

open Outcome

theorem Text.split_append_cons (sep : Char) (s t : List Char) :
    split sep (s ++ sep :: t) = split sep s ++ split sep t := by
  induction s with
  | nil => simp [split]
  | cons c s ih =>
    rw [List.cons_append, split, split, ih]
    by_cases hc : c = sep
    · rw [if_pos hc, if_pos hc, List.cons_append]
    · rw [if_neg hc, if_neg hc]
      cases hs : split sep s with
      | nil => exact absurd hs (split_ne_nil sep s)
      | cons piece pieces => rfl

theorem Text.split_eq_singleton {sep : Char} {s : List Char} (h : sep ∉ s) :
    split sep s = [s] := by
  induction s with
  | nil => rfl
  | cons c s ih =>
    obtain ⟨hc, hs⟩ := List.ne_and_not_mem_of_not_mem_cons h
    rw [split, if_neg (Ne.symm hc), ih hs]

namespace FileSystem

/-- Segments lead from one place to another by so many links. -/
inductive Leads (fs : FileSystem) :
    Nat → List String → List (List Char) → List String → Prop where
  | here (place : List String) : Leads fs 0 place [] place
  | plain {used : Nat} {place next target : List String} {segment : List Char}
    {segments : List (List Char)} (hstep : fs.step place segment = .ok next)
    (hplain : ∀ path, fs.get? next ≠ some (.link path)) (h : Leads fs used next segments target) :
    Leads fs used place (segment :: segments) target
  | link {used : Nat} {place next target : List String} {segment : List Char}
    {segments : List (List Char)} {path : Path} (hstep : fs.step place segment = .ok next)
    (hlink : fs.get? next = some (.link path))
    (h : Leads fs used (start place path) (path.segments ++ segments) target) :
    Leads fs (used + 1) place (segment :: segments) target

variable {fs : FileSystem} {links used : Nat} {place next target : List String}
  {segment : List Char} {segments xs ys : List (List Char)} {path d : Path} {name : String}

theorem follow_of_plain (hstep : fs.step place segment = .ok next)
    (hplain : ∀ path, fs.get? next ≠ some (.link path)) (links : Nat) :
    fs.follow links place (segment :: segments) = fs.follow links next segments := by
  cases links <;> simp only [follow, along, hstep, bind, Except.bind]

theorem follow_of_link (hstep : fs.step place segment = .ok next)
    (hlink : fs.get? next = some (.link path)) (links : Nat) :
    fs.follow (links + 1) place (segment :: segments) =
      fs.follow links (start place path) (path.segments ++ segments) := by
  simp only [follow, along, hstep, bind, Except.bind, hlink]

theorem follow_of_leads (h : fs.Leads used place segments target) (hused : used ≤ links) :
    fs.follow links place segments = .ok target := by
  induction h generalizing links with
  | here place => cases links <;> rfl
  | plain hstep hplain _ ih => rw [follow_of_plain hstep hplain, ih hused]
  | link hstep hlink _ ih =>
    obtain ⟨fewer, rfl⟩ := Nat.exists_eq_add_of_lt (Nat.lt_of_succ_le hused)
    rw [follow_of_link hstep hlink, ih (by omega)]

theorem leads_of_along
    {followed : List String → List (List Char) → Except ReadError (List String)}
    (hf : ∀ {place segments target}, followed place segments = .ok target →
      ∃ used < links, fs.Leads used place segments target)
    (h : fs.along followed place segments = .ok target) :
    ∃ used ≤ links, fs.Leads used place segments target := by
  induction segments generalizing place with
  | nil =>
    cases h
    exact ⟨0, Nat.zero_le links, .here _⟩
  | cons segment segments ih =>
    rw [along, bind_eq_ok_iff] at h
    obtain ⟨next, hstep, h⟩ := h
    split at h
    case h_1 path hlink =>
      obtain ⟨used, hused, hleads⟩ := hf h
      exact ⟨used + 1, hused, .link hstep hlink hleads⟩
    case h_2 hplain =>
      obtain ⟨used, hused, hleads⟩ := ih h
      exact ⟨used, hused, .plain hstep hplain hleads⟩

theorem leads_of_follow (h : fs.follow links place segments = .ok target) :
    ∃ used ≤ links, fs.Leads used place segments target := by
  induction links generalizing place segments target with
  | zero => exact leads_of_along (fun hf => by cases hf) h
  | succ links ih =>
    refine leads_of_along (fun hf => ?_) h
    obtain ⟨used, hused, hleads⟩ := ih hf
    exact ⟨used, Nat.lt_succ_of_le hused, hleads⟩

theorem follow_eq_ok_iff : fs.follow links place segments = .ok target ↔
    ∃ used ≤ links, fs.Leads used place segments target :=
  ⟨leads_of_follow, fun ⟨_, hused, h⟩ => follow_of_leads h hused⟩

/-- Segments can be followed one part after the other. The induction is on the way through all of
them: a link in the first part puts its own segments in front of what is left of that part. -/
theorem leads_append_iff : fs.Leads links place (xs ++ ys) target ↔
    ∃ i j middle, links = i + j ∧ fs.Leads i place xs middle ∧ fs.Leads j middle ys target := by
  constructor
  · intro h
    generalize hsegments : xs ++ ys = segments at h
    induction h generalizing xs with
    | here place =>
      obtain ⟨rfl, rfl⟩ := List.append_eq_nil_iff.1 hsegments
      exact ⟨0, 0, place, rfl, .here place, .here place⟩
    | @plain used place next _ segment _ hstep hplain h ih =>
      obtain ⟨rfl, rfl⟩ | ⟨xs, rfl, rfl⟩ := List.append_eq_cons_iff.1 hsegments
      · exact ⟨0, used, place, (Nat.zero_add used).symm, .here place, .plain hstep hplain h⟩
      · obtain ⟨i, j, middle, rfl, hx, hy⟩ := ih rfl
        exact ⟨i, j, middle, rfl, .plain hstep hplain hx, hy⟩
    | @link used place next _ segment _ path hstep hlink h ih =>
      obtain ⟨rfl, rfl⟩ | ⟨xs, rfl, rfl⟩ := List.append_eq_cons_iff.1 hsegments
      · exact ⟨0, used + 1, place, (Nat.zero_add _).symm, .here place, .link hstep hlink h⟩
      · obtain ⟨i, j, middle, rfl, hx, hy⟩ := ih (List.append_assoc path.segments xs ys)
        exact ⟨i + 1, j, middle, Nat.add_right_comm i j 1, .link hstep hlink hx, hy⟩
  · rintro ⟨i, j, middle, rfl, hx, hy⟩
    induction hx with
    | here place => rwa [Nat.zero_add]
    | plain hstep hplain _ ih => exact .plain hstep hplain (ih hy)
    | @link used place next _ segment rest path hstep hlink _ ih =>
      rw [Nat.add_right_comm]
      exact .link hstep hlink (List.append_assoc path.segments rest ys ▸ ih hy)

theorem leads_empty_iff : fs.Leads links place [[]] target ↔
    links = 0 ∧ target = place ∧ fs.get? place = some .directory := by
  have hstep : ∀ next, fs.step place [] = .ok next ↔
      next = place ∧ fs.get? place = some .directory := by
    intro next
    unfold step
    cases fs.get? place with
    | none => simp
    | some e => cases e <;> simp [Path.isSilent, eq_comm]
  constructor
  · rintro (_ | ⟨h, hplain, hrest⟩ | ⟨h, hlink, hrest⟩)
    · obtain ⟨rfl, hplace⟩ := (hstep _).1 h
      cases hrest
      exact ⟨rfl, rfl, hplace⟩
    · obtain ⟨rfl, hplace⟩ := (hstep _).1 h
      rw [hplace] at hlink
      cases hlink
  · rintro ⟨rfl, rfl, hplace⟩
    exact .plain ((hstep _).2 ⟨rfl, hplace⟩) (by simp [hplace]) (.here _)

structure IsName (name : String) : Prop where
  spoken : Path.isSilent name.toList = false
  inside : name.toList ≠ ['.', '.']
  whole : '/' ∉ name.toList
  short : name.utf8ByteSize ≤ maxNameSize

/-- A place has a file of that name, or a link of that name that leads on to a file, by so many
links in all. -/
inductive HasFile (fs : FileSystem) (place : List String) (name : String) : Nat → Prop where
  | file {bytes : ByteArray} (h : fs.get? (place ++ [name]) = some (.file bytes)) :
    HasFile fs place name 0
  | link {used : Nat} {target : List String} {path : Path} {bytes : ByteArray}
    (hlink : fs.get? (place ++ [name]) = some (.link path))
    (hleads : fs.Leads used (start place path) path.segments target)
    (hfile : fs.get? target = some (.file bytes)) : HasFile fs place name (used + 1)

theorem step_eq_ok_iff (hname : IsName name) :
    fs.step place name.toList = .ok next ↔ fs.get? place = some .directory ∧
      next = place ++ [name] ∧ (fs.get? (place ++ [name])).isSome := by
  unfold step
  cases fs.get? place with
  | none => simp
  | some e =>
    cases e with
    | file | link => simp
    | directory =>
      simp only [hname.spoken, Bool.false_eq_true, if_false, if_neg hname.inside,
        String.ofList_toList, if_neg (Nat.not_lt.2 hname.short)]
      by_cases h : (fs.get? (place ++ [name])).isSome
      · simp [h, eq_comm]
      · simp [h]

theorem leads_name_iff (hname : IsName name) :
    (∃ target bytes, fs.Leads links place [name.toList] target ∧
      fs.get? target = some (.file bytes)) ↔
    fs.get? place = some .directory ∧ fs.HasFile place name links := by
  constructor
  · rintro ⟨target, bytes, (_ | ⟨hstep, hplain, hrest⟩ | ⟨hstep, hlink, hrest⟩), hfile⟩
    · obtain ⟨hplace, rfl, -⟩ := (step_eq_ok_iff hname).1 hstep
      cases hrest
      exact ⟨hplace, .file hfile⟩
    · obtain ⟨hplace, rfl, -⟩ := (step_eq_ok_iff hname).1 hstep
      rw [List.append_nil] at hrest
      exact ⟨hplace, .link hlink hrest hfile⟩
  · rintro ⟨hplace, hhas⟩
    cases hhas with
    | file h =>
      have hstep := (step_eq_ok_iff hname).2 ⟨hplace, rfl, Option.isSome_of_eq_some h⟩
      exact ⟨_, _, .plain hstep (by simp [h]) (.here _), h⟩
    | link hlink hleads hfile =>
      have hstep := (step_eq_ok_iff hname).2 ⟨hplace, rfl, Option.isSome_of_eq_some hlink⟩
      exact ⟨_, _, .link hstep hlink (by rwa [List.append_nil]), hfile⟩

theorem head?_ne_slash (hname : IsName name) : name.toList.head? ≠ some '/' :=
  fun h => hname.whole (List.mem_of_head? h)

theorem isAbsolute_name (hname : IsName name) : (⟨name⟩ : Path).isAbsolute = false := by
  simp [Path.isAbsolute, head?_ne_slash hname]

theorem segments_join (d : Path) (hname : IsName name) :
    (d.join ⟨name⟩).segments = d.segments ++ [name.toList] ∨
      ∃ xs, d.segments = xs ++ [[]] ∧ (d.join ⟨name⟩).segments = xs ++ [name.toList] := by
  have hwhole := Text.split_eq_singleton hname.whole
  unfold Path.join
  rw [if_neg (by simp [isAbsolute_name hname])]
  split
  case isTrue hempty =>
    have htext : d.text = "" := by simpa using hempty
    refine .inr ⟨[], ?_, hwhole⟩
    simp [Path.segments, htext, Text.split]
  split
  case isTrue hlast =>
    obtain ⟨s, hs⟩ := List.getLast?_eq_some_iff.1 hlast
    refine .inr ⟨Text.split '/' s, ?_, ?_⟩
    · rw [Path.segments, hs, Text.split_append_cons]
      rfl
    · rw [Path.segments, String.toList_append, hs, List.append_assoc, List.singleton_append,
        Text.split_append_cons, hwhole]
  case isFalse =>
    refine .inl ?_
    have htext : (d.text ++ "/" ++ name).toList = d.text.toList ++ '/' :: name.toList := by simp
    rw [Path.segments, htext, Text.split_append_cons, hwhole]
    rfl

theorem isAbsolute_join (d : Path) (hname : IsName name) :
    (d.join ⟨name⟩).isAbsolute = d.isAbsolute := by
  unfold Path.join
  rw [if_neg (by simp [isAbsolute_name hname])]
  by_cases hempty : d.text = ""
  · simp [hempty, Path.isAbsolute, head?_ne_slash hname]
  · obtain ⟨c, s, hs⟩ := List.exists_cons_of_ne_nil (fun h => hempty (String.toList_eq_nil_iff.1 h))
    rw [if_neg (by simp [hempty])]
    split <;> simp [Path.isAbsolute, hs]

theorem join_ne_empty (d : Path) (hname : IsName name) : (d.join ⟨name⟩).text ≠ "" := by
  intro h
  have hsegments : (d.join ⟨name⟩).segments = [[]] := by simp [Path.segments, h, Text.split]
  have hlast : name.toList ∈ (d.join ⟨name⟩).segments := by
    obtain hjoin | ⟨xs, -, hjoin⟩ := segments_join d hname <;> simp [hjoin]
  have hempty : name.toList = [] := by simpa [hsegments] using hlast
  have hspoken := hname.spoken
  simp [Path.isSilent, hempty] at hspoken

theorem leads_before_name_iff (hname : IsName name) :
    (∃ target bytes, fs.Leads links place (xs ++ [name.toList]) target ∧
      fs.get? target = some (.file bytes)) ↔
    ∃ i j directory, links = i + j ∧ fs.Leads i place xs directory ∧
      fs.get? directory = some .directory ∧ fs.HasFile directory name j := by
  constructor
  · rintro ⟨target, bytes, h, hfile⟩
    obtain ⟨i, j, directory, hlinks, hx, hend⟩ := leads_append_iff.1 h
    exact ⟨i, j, directory, hlinks, hx, (leads_name_iff hname).1 ⟨target, bytes, hend, hfile⟩⟩
  · rintro ⟨i, j, directory, hlinks, hx, hhas⟩
    obtain ⟨target, bytes, hend, hfile⟩ := (leads_name_iff hname).2 hhas
    exact ⟨target, bytes, leads_append_iff.2 ⟨i, j, directory, hlinks, hx, hend⟩, hfile⟩

theorem leads_concat_empty_iff : fs.Leads links place (xs ++ [[]]) target ↔
    fs.Leads links place xs target ∧ fs.get? target = some .directory := by
  rw [leads_append_iff]
  constructor
  · rintro ⟨i, j, middle, rfl, hx, hend⟩
    obtain ⟨rfl, rfl, hdirectory⟩ := leads_empty_iff.1 hend
    exact ⟨hx, hdirectory⟩
  · rintro ⟨hx, hdirectory⟩
    exact ⟨links, 0, target, rfl, hx, leads_empty_iff.2 ⟨rfl, rfl, hdirectory⟩⟩

theorem leads_join_iff (d : Path) (hname : IsName name) :
    (∃ target bytes, fs.Leads links (start place (d.join ⟨name⟩)) (d.join ⟨name⟩).segments target ∧
      fs.get? target = some (.file bytes)) ↔
    ∃ i j directory, links = i + j ∧ fs.Leads i (start place d) d.segments directory ∧
      fs.get? directory = some .directory ∧ fs.HasFile directory name j := by
  have hstart : start place (d.join ⟨name⟩) = start place d := by
    rw [start, start, isAbsolute_join d hname]
  rw [hstart]
  obtain hjoin | ⟨xs, hd, hjoin⟩ := segments_join d hname
  · rw [hjoin, leads_before_name_iff hname]
  · simp only [hd, hjoin, leads_before_name_iff hname, leads_concat_empty_iff, and_assoc,
      and_self_left]

theorem resolve_eq_ok_iff : fs.resolve path = .ok target ↔ path.text ≠ "" ∧
    ∃ used ≤ maxLinks, fs.Leads used (start fs.current path) path.segments target := by
  unfold resolve
  by_cases h : path.text = ""
  · simp [h]
  · simp [h, follow_eq_ok_iff]

theorem find?_eq_ok_iff {e : Entry} : fs.find? path = .ok e ↔ '\x00' ∉ path.text.toList ∧
    path.text.utf8ByteSize < maxPathSize ∧
      ∃ names, fs.resolve path = .ok names ∧ fs.get? names = some e := by
  unfold find?
  by_cases hclean : '\x00' ∈ path.text.toList
  · simp [hclean]
  by_cases hshort : path.text.utf8ByteSize < maxPathSize
  · simp only [List.contains_iff_mem, hclean, if_false, Nat.not_le.2 hshort, bind_eq_ok_iff,
      not_false_eq_true, true_and, hshort]
    refine exists_congr fun names => and_congr_right fun _ => ?_
    cases fs.get? names <;> simp
  · simp [hclean, hshort, Nat.not_lt.1 hshort]

/-- A path leads to a directory with a file of that name in it. The links on the way to the file and
the bytes of its path are not too many for opening it. -/
structure Contains (fs : FileSystem) (d : Path) (name : String) : Prop where
  clean : '\x00' ∉ (d.join ⟨name⟩).text.toList
  short : (d.join ⟨name⟩).text.utf8ByteSize < maxPathSize
  inside : ∃ i j place, i + j ≤ maxLinks ∧ fs.Leads i (start fs.current d) d.segments place ∧
    fs.get? place = some .directory ∧ fs.HasFile place name j

theorem find?_join_iff (d : Path) (hname : IsName name) :
    (∃ bytes, fs.find? (d.join ⟨name⟩) = .ok (.file bytes)) ↔ fs.Contains d name := by
  constructor
  · rintro ⟨bytes, h⟩
    obtain ⟨hclean, hshort, target, hresolve, hfile⟩ := find?_eq_ok_iff.1 h
    obtain ⟨-, links, hlinks, hleads⟩ := resolve_eq_ok_iff.1 hresolve
    obtain ⟨i, j, place, rfl, hhas⟩ := (leads_join_iff d hname).1 ⟨target, bytes, hleads, hfile⟩
    exact ⟨hclean, hshort, i, j, place, hlinks, hhas⟩
  · rintro ⟨hclean, hshort, i, j, place, hlinks, hhas⟩
    obtain ⟨target, bytes, hleads, hfile⟩ := (leads_join_iff d hname).2 ⟨i, j, place, rfl, hhas⟩
    have hresolve := resolve_eq_ok_iff.2 ⟨join_ne_empty d hname, i + j, hlinks, hleads⟩
    exact ⟨bytes, find?_eq_ok_iff.2 ⟨hclean, hshort, target, hresolve, hfile⟩⟩

end FileSystem

end ApiLint
