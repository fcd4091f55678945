import Mathlib.Data.List.Forall2
import Mathlib.Data.List.Pairwise
import PatternLint.FileSystem

/-!
# Ordered lists, what they hold

An ordered list holds nothing but elements of the list it is made of (`mem_of_mem_ofList`), for each of them one
that compares equal (`exists_mem_ofList`), and its elements ascend (`pairwise_lt_ofList`). As sorting is stable, the one
that is kept is the first of those that compare equal (`find?_ofList`). Lists that ascend and hold the same up to
comparing equal do so element by element (`forall₂_of_pairwise_lt`). Without strictness, they are the same if they hold the
same elements of each kind in the same order (`eq_of_filter_eq`).
-/
namespace PatternLint.Ordered

variable {α : Type} {compare : α → α → Ordering}

theorem mem_of_mem_dropRepeats {list : List α} {a : α} (member : a ∈ dropRepeats compare list) : a ∈ list := by
  induction list using dropRepeats.induct compare with
  | case1 => simp [dropRepeats] at member
  | case2 b => simpa [dropRepeats] using member
  | case3 b c list same ih =>
    rw [dropRepeats, if_pos same] at member
    exact (List.mem_cons.mp (ih member)).elim (fun first => by simp [first])
      fun later => List.mem_cons_of_mem b (List.mem_cons_of_mem c later)
  | case4 b c list other ih =>
    rw [dropRepeats, if_neg other] at member
    rcases List.mem_cons.mp member with rfl | later
    · exact List.mem_cons_self
    · exact List.mem_cons_of_mem b (ih later)

theorem mem_of_mem_ofList {list : List α} {a : α} (member : a ∈ ofList compare list) : a ∈ list :=
  List.mem_mergeSort.mp (mem_of_mem_dropRepeats member)

variable [Std.TransCmp compare]

/-- What is removed compares equal to something that is kept. -/
theorem exists_mem_dropRepeats {list : List α} {a : α} (member : a ∈ list) :
    ∃ b ∈ dropRepeats compare list, compare b a = .eq := by
  induction list using dropRepeats.induct compare generalizing a with
  | case1 => cases member
  | case2 b =>
    refine ⟨b, by simp [dropRepeats], ?_⟩
    rw [List.mem_singleton.mp member]
    exact Std.ReflCmp.compare_self
  | case3 b c list same ih =>
    rw [dropRepeats, if_pos same]
    rcases List.mem_cons.mp member with rfl | rest
    · exact ih List.mem_cons_self
    · rcases List.mem_cons.mp rest with rfl | later
      · obtain ⟨kept, inList, equal⟩ := ih List.mem_cons_self
        exact ⟨kept, inList, Std.TransCmp.eq_trans equal same⟩
      · exact ih (List.mem_cons_of_mem b later)
  | case4 b c list other ih =>
    rw [dropRepeats, if_neg other]
    rcases List.mem_cons.mp member with rfl | rest
    · exact ⟨a, List.mem_cons_self, Std.ReflCmp.compare_self⟩
    · obtain ⟨kept, inList, equal⟩ := ih rest
      exact ⟨kept, List.mem_cons_of_mem b inList, equal⟩

theorem exists_mem_ofList {list : List α} {a : α} (member : a ∈ list) :
    ∃ b ∈ ofList compare list, compare b a = .eq :=
  exists_mem_dropRepeats (List.mem_mergeSort.mpr member)

/-- If only equal elements compare equal, none is lost. -/
theorem mem_ofList_iff [Std.LawfulEqCmp compare] {list : List α} {a : α} : a ∈ ofList compare list ↔ a ∈ list := by
  refine ⟨mem_of_mem_ofList, fun member => ?_⟩
  obtain ⟨b, kept, equal⟩ : ∃ b ∈ ofList compare list, compare b a = .eq := exists_mem_ofList member
  rwa [Std.LawfulEqCmp.compare_eq_iff_eq.mp equal] at kept

theorem pairwise_lt_dropRepeats {list : List α} (ascending : list.Pairwise fun a b => (compare a b).isLE = true) :
    (dropRepeats compare list).Pairwise fun a b => compare a b = .lt := by
  induction list using dropRepeats.induct compare with
  | case1 => simp [dropRepeats]
  | case2 b => simp [dropRepeats]
  | case3 b c list same ih =>
    rw [dropRepeats, if_pos same]
    obtain ⟨first, rest⟩ := List.pairwise_cons.mp ascending
    exact ih (List.pairwise_cons.mpr ⟨fun a later => first a (List.mem_cons_of_mem c later),
      (List.pairwise_cons.mp rest).2⟩)
  | case4 b c list other ih =>
    rw [dropRepeats, if_neg other]
    obtain ⟨first, rest⟩ := List.pairwise_cons.mp ascending
    refine List.pairwise_cons.mpr ⟨fun a kept => ?_, ih rest⟩
    -- the first element is below the next one, and that one is not above any that is kept
    have below : compare b c = .lt := by
      have notAbove := first c List.mem_cons_self
      cases outcome : compare b c with
      | lt => rfl
      | eq => exact absurd outcome other
      | gt => simp [outcome] at notAbove
    rcases List.mem_cons.mp (mem_of_mem_dropRepeats kept) with rfl | later
    · exact below
    · exact Std.TransCmp.lt_of_lt_of_isLE below ((List.pairwise_cons.mp rest).1 a later)

theorem isLE_total (a b : α) : ((compare a b).isLE || (compare b a).isLE) = true := by
  have swapped : compare b a = (compare a b).swap := Std.OrientedCmp.eq_swap
  rw [swapped, Bool.or_eq_true]
  cases compare a b <;> simp

/-- The elements of an ordered list ascend. -/
theorem pairwise_lt_ofList (list : List α) : (ofList compare list).Pairwise fun a b => compare a b = .lt :=
  pairwise_lt_dropRepeats (List.pairwise_mergeSort (fun _ _ _ => Std.TransCmp.isLE_trans) isLE_total list)

/-! ### The first of equals -/

/-- Sorting leaves elements that compare equal in their order. -/
theorem filter_mergeSort (list : List α) (a : α) :
    (list.mergeSort fun b c => (compare b c).isLE).filter (compare · a = .eq) = list.filter (compare · a = .eq) := by
  have level : (list.filter (compare · a = .eq)).Pairwise fun b c => (compare b c).isLE = true := by
    refine List.pairwise_of_forall_mem_list fun b inB c inC => ?_
    have first : compare b a = .eq := of_decide_eq_true (List.mem_filter.mp inB).2
    have second : compare c a = .eq := of_decide_eq_true (List.mem_filter.mp inC).2
    rw [Std.TransCmp.eq_trans first (Std.OrientedCmp.eq_symm second)]
    rfl
  have kept := (List.sublist_mergeSort (fun _ _ _ => Std.TransCmp.isLE_trans) isLE_total level
    List.filter_sublist).filter (compare · a = .eq)
  simp only [List.filter_filter, Bool.and_self] at kept
  exact (kept.eq_of_length ((List.mergeSort_perm _ _).filter _).length_eq.symm).symm

theorem find?_dropRepeats (list : List α) (a : α) :
    (dropRepeats compare list).find? (compare · a = .eq) = list.find? (compare · a = .eq) := by
  induction list using dropRepeats.induct compare with
  | case1 => rw [dropRepeats]
  | case2 b => rw [dropRepeats]
  | case3 b c list same ih =>
    rw [dropRepeats, if_pos same, ih]
    simp only [List.find?_cons, Std.TransCmp.congr_left (c := a) same]
    split <;> rfl
  | case4 b c list other ih =>
    rw [dropRepeats, if_neg other, List.find?_cons, ih]
    rfl

/-- No two elements of a list that ascends compare equal. -/
theorem eq_of_pairwise_lt {list : List α} (ascending : list.Pairwise fun a b => compare a b = .lt) {a b : α}
    (inList : a ∈ list) (alsoInList : b ∈ list) (same : compare a b = .eq) : a = b := by
  have apart : list.Pairwise fun a b => compare a b ≠ .eq := ascending.imp fun below same => by
    rw [below] at same
    cases same
  have : Std.Symm fun a b => compare a b ≠ .eq := ⟨fun _ _ distinct same => distinct (Std.OrientedCmp.eq_symm same)⟩
  by_contra other
  exact apart.forall inList alsoInList other same

/-- Of the elements that compare equal, the one that is kept comes first. -/
theorem find?_ofList {list : List α} {a : α} (kept : a ∈ ofList compare list) :
    list.find? (compare · a = .eq) = some a := by
  have same : (ofList compare list).find? (compare · a = .eq) = list.find? (compare · a = .eq) := by
    rw [ofList, find?_dropRepeats, ← List.head?_filter, filter_mergeSort, List.head?_filter]
  obtain ⟨b, found⟩ : ∃ b, (ofList compare list).find? (compare · a = .eq) = some b :=
    Option.isSome_iff_exists.mp (List.find?_isSome.mpr ⟨a, kept, by simp [Std.ReflCmp.compare_self]⟩)
  have equal := of_decide_eq_true (List.find?_some (p := (compare · a = .eq)) found)
  rw [← same, found, eq_of_pairwise_lt (pairwise_lt_ofList list) (List.mem_of_find?_eq_some found) kept equal]

/-! ### Lists that hold the same -/

/-- The first element of a list that ascends is not above what compares equal to one of its elements. -/
theorem isLE_of_mem {a b c : α} {list : List α} (ascending : (a :: list).Pairwise fun a b => compare a b = .lt)
    (member : b ∈ a :: list) (same : compare c b = .eq) : (compare a c).isLE = true := by
  have equal : compare b c = .eq := Std.OrientedCmp.eq_symm same
  rcases List.mem_cons.mp member with rfl | later
  · rw [equal]
    rfl
  · rw [Std.TransCmp.lt_of_lt_of_eq ((List.pairwise_cons.mp ascending).1 b later) equal]
    rfl

/-- What compares equal to a later element does not compare equal to the first one. -/
theorem mem_of_later {a b c d : α} {list other : List α} (ascending : (a :: list).Pairwise fun a b => compare a b = .lt)
    (first : compare a b = .eq) (later : c ∈ list) (member : d ∈ b :: other) (same : compare c d = .eq) : d ∈ other := by
  refine (List.mem_cons.mp member).resolve_left ?_
  rintro rfl
  have below := (List.pairwise_cons.mp ascending).1 c later
  rw [Std.TransCmp.eq_trans first (Std.OrientedCmp.eq_symm same)] at below
  cases below

/-- Lists that ascend and hold elements that compare equal do so one by one. -/
theorem forall₂_of_pairwise_lt {list other : List α} (ascending : list.Pairwise fun a b => compare a b = .lt)
    (ascending' : other.Pairwise fun a b => compare a b = .lt) (there : ∀ a ∈ list, ∃ b ∈ other, compare a b = .eq)
    (back : ∀ b ∈ other, ∃ a ∈ list, compare b a = .eq) : List.Forall₂ (fun a b => compare a b = .eq) list other := by
  induction list generalizing other with
  | nil =>
    cases other with
    | nil => exact .nil
    | cons b other =>
      obtain ⟨_, member, _⟩ := back b List.mem_cons_self
      cases member
  | cons a list ih =>
    cases other with
    | nil =>
      obtain ⟨_, member, _⟩ := there a List.mem_cons_self
      cases member
    | cons b other =>
      obtain ⟨c, inOther, likeA⟩ := there a List.mem_cons_self
      obtain ⟨d, inList, likeB⟩ := back b List.mem_cons_self
      have first : compare a b = .eq :=
        Std.OrientedCmp.isLE_antisymm (isLE_of_mem ascending inList likeB) (isLE_of_mem ascending' inOther likeA)
      refine .cons first (ih ascending.of_cons ascending'.of_cons (fun c later => ?_) fun c later => ?_)
      · obtain ⟨d, member, same⟩ := there c (List.mem_cons_of_mem a later)
        exact ⟨d, mem_of_later ascending first later member same, same⟩
      · obtain ⟨d, member, same⟩ := back c (List.mem_cons_of_mem b later)
        exact ⟨d, mem_of_later ascending' (Std.OrientedCmp.eq_symm first) later member same, same⟩

/-- The first element of a list that ascends is not above another one. -/
theorem isLE_of_head {a b : α} {list : List α} (ascending : (a :: list).Pairwise fun a b => (compare a b).isLE = true)
    (member : b ∈ a :: list) : (compare a b).isLE = true := by
  rcases List.mem_cons.mp member with rfl | later
  · exact Ordering.isLE_of_eq_eq Std.ReflCmp.compare_self
  · exact (List.pairwise_cons.mp ascending).1 b later

theorem mem_of_filter_eq {list other : List α}
    (same : ∀ a, list.filter (compare · a = .eq) = other.filter (compare · a = .eq)) {a : α} (member : a ∈ list) :
    a ∈ other := by
  have kept : a ∈ list.filter (compare · a = .eq) :=
    List.mem_filter.mpr ⟨member, decide_eq_true Std.ReflCmp.compare_self⟩
  rw [same] at kept
  exact (List.mem_filter.mp kept).1

/-- Lists that ascend are the same if they hold the same elements of each kind in the same order. -/
theorem eq_of_filter_eq {list other : List α} (ascending : list.Pairwise fun a b => (compare a b).isLE = true)
    (ascending' : other.Pairwise fun a b => (compare a b).isLE = true)
    (same : ∀ a, list.filter (compare · a = .eq) = other.filter (compare · a = .eq)) : list = other := by
  induction list generalizing other with
  | nil =>
    cases other with
    | nil => rfl
    | cons b other => cases mem_of_filter_eq (fun a => (same a).symm) (@List.mem_cons_self _ b other)
  | cons a list ih =>
    cases other with
    | nil => cases mem_of_filter_eq same (@List.mem_cons_self _ a list)
    | cons b other =>
      have level : compare a b = .eq := Std.OrientedCmp.isLE_antisymm
        (isLE_of_head ascending (mem_of_filter_eq (fun a => (same a).symm) List.mem_cons_self))
        (isLE_of_head ascending' (mem_of_filter_eq same List.mem_cons_self))
      have first := same b
      rw [List.filter_cons_of_pos (by simpa using level),
        List.filter_cons_of_pos (by simpa using Std.ReflCmp.compare_self)] at first
      obtain ⟨rfl, -⟩ := List.cons.inj first
      have rest (c : α) : list.filter (compare · c = .eq) = other.filter (compare · c = .eq) := by
        have own := same c
        rw [List.filter_cons, List.filter_cons] at own
        split at own
        · exact (List.cons.inj own).2
        · exact own
      rw [ih ascending.of_cons ascending'.of_cons rest]

end PatternLint.Ordered
