/-
Module: DefinitionLists.Proofs.Settings.DisabledStages
Purpose: Which stages run under settings, told by the names of the stages to disable: all stages of the
  variant but those named, unless a name is not known, the first of which is reported. Nothing else about
  the list of names matters.
Main exports: Stage.knownNames, Variant.order, KeysAlike, Settings.converter_congr,
  keysAlike_foldl_disable, Settings.converter_by_names
-/
import DefinitionLists.Proofs.Settings.Spellings
import DefinitionLists.Proofs.Run

namespace DefinitionLists

/-- The names of the stages that may be disabled. -/
def Stage.knownNames : List String :=
  ["pre-normalizer", "detail-merger", "sibling-list", "list-kind", "cleanup", "orphan-absorber",
    "coalescer"]

/-- The names of the stages of a variant in the order in which they run. -/
def Variant.order : Variant → List String
  | .basic => ["builder", "detail-merger", "sibling-list", "list-kind", "cleanup", "coalescer"]
  | .advanced => ["pre-normalizer", "builder", "detail-merger", "sibling-list", "list-kind", "cleanup",
      "orphan-absorber", "coalescer"]

theorem Variant.map_name_stages (variant : Variant) : variant.stages.map Stage.name = variant.order := by
  cases variant <;> rfl

/-- Whether no stage that may be disabled has the name. -/
def isUnknown (key : String) : Bool := !(Stage.optional.any (·.name == key))

theorem isUnknown_eq_true_iff {key : String} : isUnknown key = true ↔ key ∉ Stage.knownNames := by
  have hnames : Stage.optional.map Stage.name = Stage.knownNames := rfl
  simp only [isUnknown, Bool.not_eq_true', ← Bool.not_eq_true, List.any_eq_true, beq_iff_eq, ← hnames,
    List.mem_map]

theorem isUnknown_eq_false_iff {key : String} : isUnknown key = false ↔ key ∈ Stage.knownNames := by
  rw [← Bool.not_eq_true, isUnknown_eq_true_iff, not_not]

theorem builder_not_mem_knownNames : Stage.builder.name ∉ Stage.knownNames := by decide

namespace Settings

/-- The normalized names of the stages to disable, in order. -/
def keys (settings : Settings) : List String := settings.disabled.map normalizeKey

theorem mem_keys {settings : Settings} {key : String} :
    key ∈ settings.keys ↔ ∃ name ∈ settings.disabled, normalizeKey name = key := List.mem_map

/-! ### Failing and not failing -/

theorem stages_eq_keys (settings : Settings) : settings.stages =
    match settings.keys.find? isUnknown with
    | some name => .error ⟨name⟩
    | none => .ok (settings.variant.stages.filter
        (fun stage => stage = .builder || !settings.keys.contains stage.name)) :=
  settings.stages_eq

/-- Stages are refused for the first unknown name. -/
theorem stages_eq_error_iff {settings : Settings} {fault : UnknownPass} :
    settings.stages = .error fault ↔ settings.keys.find? isUnknown = some fault.name := by
  rw [stages_eq_keys]
  cases settings.keys.find? isUnknown with
  | none => simp
  | some name =>
      obtain ⟨name'⟩ := fault
      simp

/-- Stages are accepted if all names are known, and are those of the variant that are not named. -/
theorem stages_eq_ok_iff {settings : Settings} {stages : List Stage} :
    settings.stages = .ok stages ↔ (∀ key ∈ settings.keys, key ∈ Stage.knownNames) ∧
      stages = settings.variant.stages.filter (fun stage => stage.name ∉ settings.keys) := by
  rw [stages_eq_keys]
  cases hfind : settings.keys.find? isUnknown with
  | some name =>
      have hname := List.mem_of_find?_eq_some hfind
      have hunknown := isUnknown_eq_true_iff.1 (List.find?_some hfind)
      simp only [reduceCtorEq, false_iff, not_and]
      exact fun hknown => absurd (hknown name hname) hunknown
  | none =>
      have hknown : ∀ key ∈ settings.keys, key ∈ Stage.knownNames := fun key hkey =>
        isUnknown_eq_false_iff.1 (Bool.eq_false_iff.2 (List.find?_eq_none.1 hfind key hkey))
      have hbuilder : Stage.builder.name ∉ settings.keys := fun hmem =>
        builder_not_mem_knownNames (hknown _ hmem)
      have hfilter : settings.variant.stages.filter
            (fun stage => stage = .builder || !settings.keys.contains stage.name) =
          settings.variant.stages.filter (fun stage => stage.name ∉ settings.keys) := by
        refine List.filter_congr fun stage _ => ?_
        by_cases hstage : stage = .builder
        · simp [hstage, hbuilder]
        · simp [hstage]
      rw [hfilter, Except.ok.injEq, eq_comm]
      exact (and_iff_right hknown).symm

theorem converter_eq_error_iff {settings : Settings} {fault : UnknownPass} :
    settings.converter = .error fault ↔ settings.keys.find? isUnknown = some fault.name := by
  rw [← stages_eq_error_iff, converter]
  cases settings.stages <;> simp [Except.map]

theorem converter_eq_ok_iff {settings : Settings} {converter : Converter} :
    settings.converter = .ok converter ↔ (∀ key ∈ settings.keys, key ∈ Stage.knownNames) ∧
      converter = ⟨settings.gfm,
        settings.variant.stages.filter (fun stage => stage.name ∉ settings.keys)⟩ := by
  obtain ⟨extended, stages⟩ := converter
  rw [Settings.converter]
  cases hstages : settings.stages with
  | error fault =>
      have hnone : ¬ ∃ stages, settings.stages = .ok stages := by simp [hstages]
      simp only [Except.map, reduceCtorEq, false_iff]
      exact fun h => hnone ⟨_, stages_eq_ok_iff.2 ⟨h.1, rfl⟩⟩
  | ok chosen =>
      obtain ⟨hknown, rfl⟩ := stages_eq_ok_iff.1 hstages
      simp only [Except.map, Except.ok.injEq]
      exact ⟨fun h => ⟨hknown, h.symm⟩, fun h => h.2.symm⟩

/-- The first of the names of which none before it is unknown. -/
theorem find?_keys_eq_some_iff {settings : Settings} {key : String} :
    settings.keys.find? isUnknown = some key ↔ ∃ before name after,
      settings.disabled = before ++ name :: after ∧
      (∀ earlier ∈ before, normalizeKey earlier ∈ Stage.knownNames) ∧
      normalizeKey name = key ∧ key ∉ Stage.knownNames := by
  rw [keys, List.find?_map, Option.map_eq_some_iff]
  constructor
  · rintro ⟨name, hname, rfl⟩
    obtain ⟨hunknown, before, after, hsplit, hbefore⟩ := List.find?_eq_some_iff_append.1 hname
    rw [Function.comp_apply, isUnknown_eq_true_iff] at hunknown
    refine ⟨before, name, after, hsplit, fun earlier hearlier => ?_, rfl, hunknown⟩
    simpa [isUnknown_eq_false_iff] using hbefore earlier hearlier
  · rintro ⟨before, name, after, hsplit, hbefore, rfl, hunknown⟩
    rw [← isUnknown_eq_true_iff, ← Function.comp_apply (f := isUnknown)] at hunknown
    refine ⟨name, List.find?_eq_some_iff_append.2
      ⟨hunknown, before, after, hsplit, fun earlier hearlier => ?_⟩, rfl⟩
    simpa [isUnknown_eq_false_iff] using hbefore earlier hearlier

end Settings

/-! ### Lists of names that come to the same -/

/-- Whether the same names are in both lists, and the first unknown one is the same. -/
structure KeysAlike (first second : List String) : Prop where
  mem_iff : ∀ key, key ∈ first ↔ key ∈ second
  find_eq : first.find? isUnknown = second.find? isUnknown

namespace KeysAlike

variable {first second third : List String}

theorem refl (keys : List String) : KeysAlike keys keys := ⟨fun _ => Iff.rfl, rfl⟩

theorem trans (h : KeysAlike first second) (h' : KeysAlike second third) : KeysAlike first third :=
  ⟨fun key => (h.mem_iff key).trans (h'.mem_iff key), h.find_eq.trans h'.find_eq⟩

theorem append (h : KeysAlike first second) (more : List String) :
    KeysAlike (first ++ more) (second ++ more) := by
  refine ⟨fun key => ?_, ?_⟩
  · rw [List.mem_append, List.mem_append, h.mem_iff]
  · rw [List.find?_append, List.find?_append, h.find_eq]

/-- A name that is there already may come once more. -/
theorem concat_of_mem {keys : List String} {key : String} (h : key ∈ keys) :
    KeysAlike keys (keys ++ [key]) := by
  refine ⟨fun other => ?_, ?_⟩
  · rw [List.mem_append, List.mem_singleton]
    exact ⟨.inl, fun hother => hother.elim id (fun heq => heq ▸ h)⟩
  · rw [List.find?_append]
    cases hfind : keys.find? isUnknown with
    | some unknown => rfl
    | none =>
        have hknown : isUnknown key = false := Bool.eq_false_iff.2 (List.find?_eq_none.1 hfind key h)
        simp [hknown]

end KeysAlike

namespace Settings

/-- The converter depends on nothing about the names but which there are, and which unknown one is
first. -/
theorem converter_congr {settings settings' : Settings} (hv : settings.variant = settings'.variant)
    (hg : settings.gfm = settings'.gfm) (h : KeysAlike settings.keys settings'.keys) :
    settings.converter = settings'.converter := by
  cases hconverter : settings'.converter with
  | error fault => rw [converter_eq_error_iff, h.find_eq, ← converter_eq_error_iff, hconverter]
  | ok converter =>
      obtain ⟨hknown, rfl⟩ := converter_eq_ok_iff.1 hconverter
      refine converter_eq_ok_iff.2 ⟨fun key hkey => hknown key ((h.mem_iff key).1 hkey), ?_⟩
      simp only [hv, hg, h.mem_iff]

/-- Disabling a name adds it, unless it is empty, or there already. -/
theorem keysAlike_disable (settings : Settings) (name : String) :
    KeysAlike (settings.disable name).keys
      (settings.keys ++ ([name].filter (normalizeKey · ≠ "")).map normalizeKey) := by
  unfold disable
  by_cases hempty : normalizeKey name = ""
  · simp [hempty, KeysAlike.refl]
  · have hkept : [name].filter (normalizeKey · ≠ "") = [name] := by simp [hempty]
    rw [hkept, List.map_singleton]
    simp only [show (normalizeKey name).isEmpty = false by simpa using hempty, Bool.false_or]
    split
    · next hthere =>
        have hmem : normalizeKey name ∈ settings.keys :=
          mem_keys.2 ⟨normalizeKey name, by simpa using hthere, normalizeKey_normalizeKey name⟩
        exact .concat_of_mem hmem
    · rw [keys, List.map_append, List.map_singleton, normalizeKey_normalizeKey]
      exact .refl _

/-- Overrides count as names after those of the settings, but for empty ones. -/
theorem keysAlike_foldl_disable (settings : Settings) (names : List String) :
    KeysAlike (names.foldl disable settings).keys
      (settings.keys ++ (names.filter (normalizeKey · ≠ "")).map normalizeKey) := by
  induction names generalizing settings with
  | nil => simp [KeysAlike.refl]
  | cons name more ih =>
      have hsplit : (name :: more).filter (normalizeKey · ≠ "") =
          [name].filter (normalizeKey · ≠ "") ++ more.filter (normalizeKey · ≠ "") :=
        List.filter_append (p := fun name => decide (normalizeKey name ≠ "")) [name] more
      rw [List.foldl_cons, hsplit, List.map_append, ← List.append_assoc]
      exact (ih (settings.disable name)).trans ((keysAlike_disable settings name).append _)

theorem variant_foldl_disable (settings : Settings) (names : List String) :
    (names.foldl disable settings).variant = settings.variant ∧
      (names.foldl disable settings).gfm = settings.gfm := by
  induction names generalizing settings with
  | nil => exact ⟨rfl, rfl⟩
  | cons name more ih =>
      have hname : (settings.disable name).variant = settings.variant ∧
          (settings.disable name).gfm = settings.gfm := by
        unfold disable
        simp only
        split <;> exact ⟨rfl, rfl⟩
      rw [List.foldl_cons, (ih _).1, (ih _).2]
      exact hname

theorem converter_withOverrides (settings : Settings) (variant : Option Variant) (names : List String) :
    (settings.withOverrides variant names).converter =
      { settings with
        variant := variant.getD settings.variant
        disabled := settings.disabled ++ names.filter (normalizeKey · ≠ "") }.converter := by
  obtain ⟨hvariant, hgfm⟩ :=
    variant_foldl_disable { settings with variant := variant.getD settings.variant } names
  refine converter_congr hvariant hgfm ?_
  have halike :=
    keysAlike_foldl_disable { settings with variant := variant.getD settings.variant } names
  rwa [keys, keys, ← List.map_append] at halike

/-- A later spelling of a name says nothing new. -/
theorem converter_of_repeated {settings : Settings} {before between after : List String}
    {name other : String} (hsplit : settings.disabled = before ++ name :: (between ++ other :: after))
    (h : Respelled name other) :
    { settings with disabled := before ++ name :: (between ++ after) }.converter =
      settings.converter := by
  refine converter_congr rfl rfl ?_
  have hthere : normalizeKey other ∈ (before ++ name :: between).map normalizeKey := by
    rw [← normalizeKey_eq_iff.2 h]
    exact List.mem_map_of_mem (by simp)
  have halike := (KeysAlike.concat_of_mem hthere).append (after.map normalizeKey)
  simpa [keys, hsplit] using halike

/-- The stages that only the advanced variant runs are all that tells it from the basic one. -/
theorem stages_basic_eq : Variant.basic.stages = Variant.advanced.stages.filter
    (fun stage => stage.name ∉ ["pre-normalizer", "orphan-absorber"]) := by decide +kernel

theorem converter_of_advanced (settings : Settings) :
    { settings with
      variant := .advanced
      disabled := settings.disabled ++ ["pre-normalizer", "orphan-absorber"] }.converter =
        { settings with variant := .basic }.converter := by
  have hnames : ["pre-normalizer", "orphan-absorber"].map normalizeKey =
      ["pre-normalizer", "orphan-absorber"] := by decide +kernel
  have hknown : ∀ key ∈ ["pre-normalizer", "orphan-absorber"], key ∈ Stage.knownNames := by decide
  have hkeys : { settings with
        variant := .advanced
        disabled := settings.disabled ++ ["pre-normalizer", "orphan-absorber"] }.keys =
      { settings with variant := .basic }.keys ++ ["pre-normalizer", "orphan-absorber"] := by
    rw [keys, List.map_append, hnames, keys]
  cases hconverter : { settings with variant := .basic }.converter with
  | error fault =>
      rw [converter_eq_error_iff] at hconverter ⊢
      rw [hkeys, List.find?_append, hconverter]
      rfl
  | ok converter =>
      obtain ⟨hall, rfl⟩ := converter_eq_ok_iff.1 hconverter
      refine converter_eq_ok_iff.2 ⟨fun key hkey => ?_, ?_⟩
      · rw [hkeys] at hkey
        exact (List.mem_append.1 hkey).elim (hall key) (hknown key)
      · rw [hkeys, stages_basic_eq, List.filter_filter]
        refine congrArg (Converter.mk settings.gfm) (List.filter_congr fun stage _ => ?_)
        simp only [List.mem_append, not_or, Bool.decide_and]

/-- Settings have a converter unless a stage to disable has a name that is not known; the first such name,
normalized, is reported. The converter runs the stages of the variant in their order, without exactly
those that are named, and always the builder. The order of the names, and how often and in which spelling
they come, makes no difference; only which unknown name comes first depends on their order. Names given
as overrides count as names after those of the settings, apart from empty ones, and may be given at once
or in two turns. The advanced variant without the two stages that are its own is the basic one. -/
theorem converter_by_names (settings : Settings) :
    (∀ fault, settings.converter = .error fault ↔ ∃ before name after,
      settings.disabled = before ++ name :: after ∧
      (∀ earlier ∈ before, normalizeKey earlier ∈ Stage.knownNames) ∧
      normalizeKey name = fault.name ∧ fault.name ∉ Stage.knownNames) ∧
    ((∀ name ∈ settings.disabled, normalizeKey name ∈ Stage.knownNames) →
      ∃ converter, settings.converter = .ok converter ∧ converter.extended = settings.gfm ∧
        converter.stages.map Stage.name =
          settings.variant.order.filter (fun name => name ∉ settings.disabled.map normalizeKey) ∧
        Stage.builder ∈ converter.stages) ∧
    (∀ names, (∀ name ∈ settings.disabled, ∃ other ∈ names, Respelled name other) →
      (∀ other ∈ names, ∃ name ∈ settings.disabled, Respelled name other) →
      ∀ converter, settings.converter = .ok converter ↔
        { settings with disabled := names }.converter = .ok converter) ∧
    (∀ names, List.Forall₂ Respelled settings.disabled names →
      { settings with disabled := names }.converter = settings.converter) ∧
    (∀ before name between other after,
      settings.disabled = before ++ name :: (between ++ other :: after) → Respelled name other →
      { settings with disabled := before ++ name :: (between ++ after) }.converter =
        settings.converter) ∧
    (∀ variant names, (settings.withOverrides variant names).converter =
      { settings with
        variant := variant.getD settings.variant
        disabled := settings.disabled ++ names.filter (normalizeKey · ≠ "") }.converter) ∧
    (∀ variant first second, settings.withOverrides variant (first ++ second) =
      (settings.withOverrides variant first).withOverrides none second) ∧
    { settings with
      variant := .advanced
      disabled := settings.disabled ++ ["pre-normalizer", "orphan-absorber"] }.converter =
        { settings with variant := .basic }.converter := by
  refine ⟨fun fault => ?_, fun hknown => ?_, fun names hthere hback converter => ?_,
    fun names hspelled => ?_, fun _ _ _ _ _ => converter_of_repeated,
    converter_withOverrides settings, fun variant first second => ?_, converter_of_advanced settings⟩
  · rw [converter_eq_error_iff, find?_keys_eq_some_iff]
  · have hkeys : ∀ key ∈ settings.keys, key ∈ Stage.knownNames := List.forall_mem_map.2 hknown
    refine ⟨_, converter_eq_ok_iff.2 ⟨hkeys, rfl⟩, rfl, ?_, ?_⟩
    · rw [← settings.variant.map_name_stages, List.filter_map]
      rfl
    · refine List.mem_filter.2 ⟨?_, ?_⟩
      · cases settings.variant <;> decide
      · exact decide_eq_true fun hmem => builder_not_mem_knownNames (hkeys _ hmem)
  · have hkeys (key : String) :
        key ∈ settings.keys ↔ key ∈ { settings with disabled := names }.keys := by
      rw [mem_keys, mem_keys]
      constructor
      · rintro ⟨name, hname, rfl⟩
        obtain ⟨other, hother, hsame⟩ := hthere name hname
        exact ⟨other, hother, (normalizeKey_eq_iff.2 hsame).symm⟩
      · rintro ⟨other, hother, rfl⟩
        obtain ⟨name, hname, hsame⟩ := hback other hother
        exact ⟨name, hname, normalizeKey_eq_iff.2 hsame⟩
    rw [converter_eq_ok_iff, converter_eq_ok_iff]
    simp only [hkeys]
  · have hkeys : settings.keys = { settings with disabled := names }.keys := by
      rw [keys, keys, ← List.forall₂_eq_eq_eq, List.forall₂_map_left_iff, List.forall₂_map_right_iff]
      exact hspelled.imp fun _ _ h => normalizeKey_eq_iff.2 h
    exact converter_congr rfl rfl (hkeys ▸ .refl _)
  · rw [withOverrides, List.foldl_append]
    rfl

/-- Names count in any spelling, and the first unknown one is told as it is normalized. -/
example : (({ disabled := ["  Clean_Up ", "LIST_kind", "list-kind"] } : Settings).converter =
      .error ⟨"clean-up"⟩) ∧
    ({ disabled := ["\u00a0CLEANUP", "List_Kind", "list-kind"] } : Settings).converter = .ok ⟨true,
      [.prenormalizer, .builder, .detailMerger, .siblingList, .orphanAbsorber, .coalescer]⟩ := by
  decide +kernel

end Settings

end DefinitionLists
