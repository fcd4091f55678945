import PatternLint.Proofs.ExplicitPaths
import PatternLint.Proofs.Ordered

/-!
# Entries of a report

A report has one entry for each target, in the order of names, and of equal names in that of the targets
(`Targets.IsArranged`). The order hangs on the names alone, so what is read at a target changes only its own entry, and a
target more only adds one. If no two targets have the same name, their order does not matter (`Targets.entries_exact`).
-/
namespace PatternLint

/-- What is read at a path is the text of a file there. -/
theorem FileSystem.read_eq_ok_iff {files : FileSystem} {path : Path} {source : Text} : files.read path = .ok source ↔
    ∃ location contents, files.locate path = .ok (location, .file contents) ∧ Text.decode? contents = some source := by
  rw [read]
  rcases files.locate path with error | ⟨location, contents | _⟩
  · simp
  · cases decoded : Text.decode? contents <;> simp [decoded]
  · simp

namespace Targets

variable {files : FileSystem} {base : Path} {targets : List Path}

/-! ### Targets in the order of their entries -/

def byName (base a b : Path) : Ordering := compare (nameFrom base a) (nameFrom base b)

instance (base : Path) : Std.TransCmp (byName base) := inferInstanceAs (Std.TransCmp (compareOn (nameFrom base)))

theorem byName_eq_iff {a b : Path} : byName base a b = .eq ↔ nameFrom base a = nameFrom base b :=
  @Std.LawfulEqCmp.compare_eq_iff_eq Text compare _ (nameFrom base a) (nameFrom base b)

/-- Whether a list holds the targets in the order of their entries: by their names, and among targets of one name in the
    order in which they are given. -/
structure IsArranged (base : Path) (targets arranged : List Path) : Prop where
  perm : arranged.Perm targets
  ascending : arranged.Pairwise fun a b => (compare (nameFrom base a) (nameFrom base b)).isLE = true
  stable : ∀ name, arranged.filter (nameFrom base · = name) = targets.filter (nameFrom base · = name)

theorem isArranged_mergeSort (base : Path) (targets : List Path) :
    IsArranged base targets (targets.mergeSort fun a b => (byName base a b).isLE) := by
  refine ⟨List.mergeSort_perm _ _, ?_, fun name => ?_⟩
  · exact List.pairwise_mergeSort (fun _ _ _ => Std.TransCmp.isLE_trans) (@Ordered.isLE_total _ (byName base) _) targets
  · by_cases used : ∃ target ∈ targets, nameFrom base target = name
    · obtain ⟨target, -, rfl⟩ := used
      have kept := @Ordered.filter_mergeSort _ (byName base) _ targets target
      simpa only [byName_eq_iff] using kept
    · push Not at used
      have unused (list : List Path) (same : ∀ target, target ∈ list → target ∈ targets) :
          list.filter (nameFrom base · = name) = [] :=
        List.filter_eq_nil_iff.mpr fun target member => by simpa using used target (same target member)
      rw [unused targets fun _ => id, unused _ fun _ => List.mem_mergeSort.mp]

theorem IsArranged.unique {arranged other : List Path} (own : IsArranged base targets arranged)
    (also : IsArranged base targets other) : arranged = other := by
  refine @Ordered.eq_of_filter_eq _ (byName base) _ _ _ own.ascending also.ascending fun target => ?_
  simp only [byName_eq_iff]
  rw [own.stable, also.stable]

theorem files_lint {arranged : List Path} (own : IsArranged base targets arranged) (files : FileSystem) :
    (lint files base targets).files = arranged.map (entry files base) := by
  rw [own.unique (isArranged_mergeSort base targets)]
  exact lint_eq files base targets

/-- Without one target the others keep their order. -/
theorem IsArranged.without {before after arranged : List Path} {target : Path}
    (own : IsArranged base (before ++ target :: after) arranged) :
    ∃ lead rest, arranged = lead ++ target :: rest ∧ IsArranged base (before ++ after) (lead ++ rest) := by
  -- the target stands between those of its name that are given before it and those that are given behind it
  have named := own.stable (nameFrom base target)
  rw [List.filter_append, List.filter_cons_of_pos (by simp), List.filter_eq_append_iff] at named
  obtain ⟨lead, behind, rfl, inLead, kept⟩ := named
  obtain ⟨others, rest, rfl, unnamed, -, inRest⟩ := List.filter_eq_cons_iff.mp kept
  have inOthers : others.filter (nameFrom base · = nameFrom base target) = [] := List.filter_eq_nil_iff.mpr unnamed
  refine ⟨lead ++ others, rest, by simp, ?_, ?_, fun name => ?_⟩
  · refine (List.perm_cons target).mp ?_
    rw [List.append_assoc]
    have all := own.perm
    rw [← List.append_assoc] at all
    simpa using List.perm_middle.symm.trans (all.trans List.perm_middle)
  · refine own.ascending.sublist ?_
    rw [List.append_assoc]
    exact (List.Sublist.refl lead).append ((List.Sublist.refl others).append (List.sublist_cons_self target rest))
  · by_cases same : name = nameFrom base target
    · subst same
      simp [inLead, inOthers, inRest]
    · have kind := own.stable name
      simpa [List.filter_cons, Ne.symm same] using kind

/-! ### What is reported on a target -/

/-- The entry of a target, under its name: the diagnostics of its text, or a single error where it cannot be read. -/
inductive EntryOf (files : FileSystem) (base target : Path) (entry : FileReport) : Prop
  | text {location : Location} {contents : ByteArray} {source : Text} :
      files.locate target = .ok (location, .file contents) → Text.decode? contents = some source →
      entry.file = nameFrom base target → entry.result = Lint.check source → EntryOf files base target entry
  | unreadable {error : FileError} : files.read target = .error error → entry.file = nameFrom base target →
      entry.result.ok = false →
      entry.result.diagnostics = [⟨1, 1, "File could not be read: ".toList ++ error.message, .error⟩] →
      EntryOf files base target entry

theorem entryOf_entry (files : FileSystem) (base target : Path) :
    EntryOf files base target (entry files base target) := by
  rw [entry]
  cases read : files.read target with
  | ok source =>
    obtain ⟨location, contents, located, decoded⟩ := FileSystem.read_eq_ok_iff.mp read
    exact .text located decoded rfl rfl
  | error error => exact .unreadable read rfl rfl rfl

theorem forall₂_map_entry (files : FileSystem) (base : Path) (targets : List Path) :
    List.Forall₂ (EntryOf files base) targets (targets.map (entry files base)) := by
  rw [List.forall₂_map_right_iff, List.forall₂_same]
  exact fun target _ => entryOf_entry files base target

/-! ### The entries of a report -/

/-- Names that differ leave one order. -/
theorem lint_perm {others : List Path} (distinct : (targets.map (nameFrom base)).Nodup) (same : others.Perm targets) :
    lint files base others = lint files base targets := by
  have own := isArranged_mergeSort base targets
  have also := isArranged_mergeSort base others
  have antisymm (a b : Path) (inOthers : a ∈ others.mergeSort fun a b => (byName base a b).isLE)
      (inTargets : b ∈ targets.mergeSort fun a b => (byName base a b).isLE)
      (below : (byName base a b).isLE = true) (above : (byName base b a).isLE = true) : a = b := by
    have named := byName_eq_iff.mp (Std.OrientedCmp.isLE_antisymm below above)
    exact List.inj_on_of_nodup_map distinct (same.mem_iff.mp (List.mem_mergeSort.mp inOthers))
      (List.mem_mergeSort.mp inTargets) named
  have arranged := List.Perm.eq_of_pairwise antisymm also.ascending own.ascending
    (also.perm.trans (same.trans own.perm.symm))
  have entries : (lint files base others).files = (lint files base targets).files := by
    rw [files_lint also, files_lint own, arranged]
  exact congrArg Report.mk entries

/-- A report has one entry for each target, in the order of the names, and of equal names in that of the targets; this order
    is the same in all trees. It counts the targets, and the errors and warnings of all entries. What is read at a target
    changes at most its own entry, and a target more adds its entry and leaves the others as they are. If no two targets
    have the same name, the report does not hang on their order. -/
theorem entries_exact (base : Path) (targets : List Path) :
    (∃ arranged, IsArranged base targets arranged ∧
      ∀ files, List.Forall₂ (EntryOf files base) arranged (lint files base targets).files) ∧
    (∀ files, (lint files base targets).summary =
      ⟨((lint files base targets).files.map (·.result.errors.length)).sum,
        ((lint files base targets).files.map (·.result.warnings.length)).sum, targets.length⟩) ∧
    (∀ files other : FileSystem, ∀ changed, (∀ target ∈ targets, target ≠ changed → other.read target = files.read target) →
      List.Forall₂ (fun before after => after = before ∨
        EntryOf files base changed before ∧ EntryOf other base changed after)
        (lint files base targets).files (lint other base targets).files) ∧
    (∀ before target after, targets = before ++ target :: after → ∀ files, ∃ lead entry rest,
      (lint files base (before ++ after)).files = lead ++ rest ∧ EntryOf files base target entry ∧
      (lint files base targets).files = lead ++ entry :: rest) ∧
    ((targets.map (nameFrom base)).Nodup → ∀ others, others.Perm targets → ∀ files,
      lint files base others = lint files base targets) := by
  have own := isArranged_mergeSort base targets
  refine ⟨⟨_, own, fun files => ?_⟩, fun files => ?_, fun files other changed same => ?_, ?_,
    fun distinct others same files => lint_perm distinct same⟩
  · rw [files_lint own]
    exact forall₂_map_entry files base _
  · have count := length_lint files base targets
    rw [Report.summary_eq] at count ⊢
    rw [← count]
  · rw [files_lint own, files_lint own, List.forall₂_map_left_iff, List.forall₂_map_right_iff, List.forall₂_same]
    intro target member
    by_cases edited : target = changed
    · subst edited
      exact .inr ⟨entryOf_entry files base target, entryOf_entry other base target⟩
    · refine .inl ?_
      rw [entry, entry, same target (own.perm.mem_iff.mp member) edited]
  · rintro before target after rfl files
    obtain ⟨lead, rest, arranged, others⟩ := own.without
    refine ⟨lead.map (entry files base), entry files base target, rest.map (entry files base), ?_,
      entryOf_entry files base target, ?_⟩
    · rw [files_lint others, List.map_append]
    · rw [files_lint own, arranged, List.map_append, List.map_cons]

/-- A file that is there and one that is not, in either order, and the file put there. -/
theorem entries_exact_missing :
    lint (.ofLocations [[⟨['a'], rfl⟩]]) ⟨['.']⟩ [⟨['a']⟩, ⟨['b']⟩] =
      lint (.ofLocations [[⟨['a'], rfl⟩]]) ⟨['.']⟩ [⟨['b']⟩, ⟨['a']⟩] ∧
    (∃ lead entry rest, (lint (.ofLocations [[⟨['a'], rfl⟩]]) ⟨['.']⟩ [⟨['a']⟩]).files = lead ++ rest ∧
      EntryOf (.ofLocations [[⟨['a'], rfl⟩]]) ⟨['.']⟩ ⟨['b']⟩ entry ∧
      (lint (.ofLocations [[⟨['a'], rfl⟩]]) ⟨['.']⟩ [⟨['b']⟩, ⟨['a']⟩]).files = lead ++ entry :: rest) ∧
    List.Forall₂ (fun before after => after = before ∨ EntryOf (.ofLocations [[⟨['a'], rfl⟩]]) ⟨['.']⟩ ⟨['b']⟩ before ∧
        EntryOf (.ofLocations [[⟨['a'], rfl⟩], [⟨['b'], rfl⟩]]) ⟨['.']⟩ ⟨['b']⟩ after)
      (lint (.ofLocations [[⟨['a'], rfl⟩]]) ⟨['.']⟩ [⟨['b']⟩, ⟨['a']⟩]).files
      (lint (.ofLocations [[⟨['a'], rfl⟩], [⟨['b'], rfl⟩]]) ⟨['.']⟩ [⟨['b']⟩, ⟨['a']⟩]).files := by
  obtain ⟨-, -, changed, inserted, permuted⟩ := entries_exact ⟨['.']⟩ [⟨['b']⟩, ⟨['a']⟩]
  refine ⟨permuted (by decide) _ (.swap _ _ []) _, inserted [] _ _ rfl _, changed _ _ _ fun target listed other => ?_⟩
  have own : target = ⟨['a']⟩ := by simpa [other] using listed
  rw [own]
  cbv

end Targets

end PatternLint
