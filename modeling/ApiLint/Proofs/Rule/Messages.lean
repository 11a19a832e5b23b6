import ApiLint.Proofs.Finding.Rendering
import ApiLint.Rule.ObjectPropCasing

/-!
# Messages about casings

The message about a property is made from its name, which is put in first and may be any text. So
the casing is put into the name too, wherever its placeholder stands there.
-/

namespace ApiLint

open Json

namespace Rule

open Template

def casingMessage (key : String) (casing : Casing) : String :=
  "Property \"" ++ key ++ "\" has wrong casing. Expected " ++ casing.name ++ "."

def casingPieces (key : Piece) : List Piece :=
  [.text "Property \"".toList, key, .text ('"' :: " has wrong casing. Expected ".toList),
    .hole "casing", .text ".".toList]

theorem sound_casingPieces : ∀ p ∈ casingPieces (.hole "key"), p.Sound := by
  simp only [casingPieces, List.forall_mem_cons]
  exact ⟨inert_of_not_mem (by decide), ⟨by decide, by decide⟩, inert_of_not_mem (by decide),
    ⟨by decide, by decide⟩, inert_of_not_mem (by decide), List.forall_mem_nil _⟩

def casingEnding (casing : List Char) : List Char :=
  '"' :: (" has wrong casing. Expected ".toList ++ (casing ++ ".".toList))

theorem renderChars_casing (key : String) (casing : Casing) :
    renderChars (assemble (casingPieces (.hole "key"))) (casingData key casing) =
      "Property \"".toList ++ (Text.replace (placeholder "casing") casing.name.toList key.toList ++
        casingEnding casing.name.toList) := by
  have hkey : Text.replace (placeholder "key") key.toList (assemble (casingPieces (.hole "key"))) =
      assemble (casingPieces (.text key.toList)) :=
    replace_assemble sound_casingPieces (by decide) key.toList
  have hpieces : assemble (casingPieces (.text key.toList)) =
      "Property \"".toList ++ (key.toList ++ casingEnding (placeholder "casing")) := by
    simp [assemble, casingPieces, casingEnding, Piece.chars]
  have hcasing : Text.replace (placeholder "casing") casing.name.toList
      (" has wrong casing. Expected ".toList ++ (placeholder "casing" ++ ".".toList)) =
        " has wrong casing. Expected ".toList ++ (casing.name.toList ++ ".".toList) := by
    rw [replace_inert _ _ (inert_of_not_mem (by decide)), replace_placeholder_self]
    rfl
  calc renderChars (assemble (casingPieces (.hole "key"))) (casingData key casing)
      = Text.replace (placeholder "casing") casing.name.toList
          (assemble (casingPieces (.text key.toList))) :=
        congrArg (Text.replace (placeholder "casing") casing.name.toList) hkey
    -- The quote after the key is in no placeholder, so that none is found around it.
    _ = "Property \"".toList ++
          (Text.replace (placeholder "casing") casing.name.toList key.toList ++
            casingEnding casing.name.toList) := by
      rw [hpieces, replace_inert _ _ (inert_of_not_mem (by decide)), casingEnding,
        Text.replace_append_cons (by decide) (placeholder_ne_nil _), hcasing]
      rfl

theorem templateText_casing (key : String) (casing : Casing) :
    objectPropCasing.templateText "casing" (casingData key casing) = casingMessage
      (String.ofList (Text.replace (placeholder "casing") casing.name.toList key.toList))
      casing := by
  have hpieces : objectPropCasing.templateText "casing" (casingData key casing) =
      String.ofList (renderChars (assemble (casingPieces (.hole "key"))) (casingData key casing)) :=
    rfl
  rw [hpieces, renderChars_casing, ← String.toList_inj]
  simp [casingMessage, casingEnding]

theorem casingMessage_inj {key other : String} {casing : Casing} :
    casingMessage key casing = casingMessage other casing ↔ key = other := by
  simp [casingMessage, ← String.toList_inj]

theorem length_name_lt (casing : Casing) :
    casing.name.toList.length < (placeholder "casing").length := by
  cases casing <;> decide

theorem templateText_casing_eq_iff (key : String) (casing : Casing) :
    objectPropCasing.templateText "casing" (casingData key casing) = casingMessage key casing ↔
      ¬ placeholder "casing" <:+: key.toList := by
  rw [templateText_casing, casingMessage_inj, ← Text.replace_eq_self_iff (length_name_lt casing),
    ← String.toList_inj, String.toList_ofList]

/-- Values are put in once where none opens a placeholder, and property keys as they are where they
do not have the place of the casing in them. -/
theorem renders_once {pieces : List Piece} {data : Members} (h : Unmistakable pieces data) :
    render (String.ofList (assemble pieces)) data = String.ofList (substitute pieces data) ∧
    (∀ data' : Members, data.keys.Nodup → data'.Perm data →
      render (String.ofList (assemble pieces)) data' =
        render (String.ofList (assemble pieces)) data) ∧
    ∀ setting l node, ∀ r ∈ checkProperties setting l node, ∃ key casing,
      objectPropCasing.finding r =
        ⟨objectPropCasing.name, casingMessage (String.ofList (Text.replace (placeholder "casing")
          casing.name.toList key.toList)) casing, (l.child "properties").child key,
          some "casing", some (casingData key casing)⟩ ∧
      ((objectPropCasing.finding r).message = casingMessage key casing ↔
        ¬ placeholder "casing" <:+: key.toList) := by
  refine ⟨?_, fun data' hnodup hperm => ?_, ?_⟩
  · rw [render, String.toList_ofList, renderChars_eq_substitute h]
  · rw [render, render, String.toList_ofList, renderChars_eq_substitute h,
      renderChars_eq_substitute (h.of_perm hnodup hperm),
      substitute_congr (Members.get?_of_perm hnodup hperm)]
  · intro setting l node r hr
    obtain ⟨key, -, rfl⟩ := List.mem_map.1 hr
    refine ⟨key, (casingOf? setting).getD .camel, ?_, templateText_casing_eq_iff key _⟩
    rw [← templateText_casing]
    rfl

def seenPieces : List Piece :=
  [.text "Property \"".toList, .hole "name", .text "\" seen ".toList, .hole "count",
    .text " times, ".toList, .hole "missing"]

def seenData : Members := [("name", .string "petId"), ("count", .number (.int 2))]

theorem unmistakable_seen : Unmistakable seenPieces seenData where
  sound := by
    simp only [seenPieces, List.forall_mem_cons]
    exact ⟨inert_of_not_mem (by decide), ⟨by decide, by decide⟩, inert_of_not_mem (by decide),
      ⟨by decide, by decide⟩, inert_of_not_mem (by decide), ⟨by decide, by decide⟩,
      List.forall_mem_nil _⟩
  keys := by decide
  inserted key v _ hv := by
    have hmem := Members.mem_of_get? hv
    simp only [seenData, List.mem_cons, List.not_mem_nil, or_false, Prod.mk.injEq] at hmem
    obtain ⟨-, rfl⟩ | ⟨-, rfl⟩ := hmem
    · exact inert_of_not_mem (by decide)
    · exact inert_of_not_mem (by decide)

theorem renders_once_seen : Unmistakable seenPieces seenData ∧
    String.ofList (assemble seenPieces) =
      "Property \"\x7b\x7bname\x7d\x7d\" seen \x7b\x7bcount\x7d\x7d times, " ++
        "\x7b\x7bmissing\x7d\x7d" ∧
    render (String.ofList (assemble seenPieces)) seenData =
      "Property \"petId\" seen 2 times, \x7b\x7bmissing\x7d\x7d" := by
  refine ⟨unmistakable_seen, by decide, ?_⟩
  rw [(renders_once unmistakable_seen).1]
  decide

theorem renders_again :
    render "\x7b\x7ba\x7d\x7d" [("a", .string "\x7b\x7bb\x7d\x7d"), ("b", .string "x")] = "x" ∧
    render "\x7b\x7ba\x7d\x7d" [("b", .string "x"), ("a", .string "\x7b\x7bb\x7d\x7d")] =
      "\x7b\x7bb\x7d\x7d" ∧
    (checkProperties .enabled ⟨["definitions", "Pet"]⟩ (.object
      [("properties", .object [("\x7b\x7bcasing\x7d\x7d", .object [])])])).map
        (fun r => (objectPropCasing.finding r).message) =
      ["Property \"camel\" has wrong casing. Expected camel."] ∧
    casingMessage "\x7b\x7bcasing\x7d\x7d" .camel ≠
      "Property \"camel\" has wrong casing. Expected camel." := by
  refine ⟨by decide, by decide, ?_, by decide⟩
  cbv

end Rule

end ApiLint
