import Mathlib.Data.List.Nodup
import StateHistory.Json.Tree

/-! # Records in JSON texts

What a tree holds for the members of a record: an object under their names, a list in their places (`Tree.Has`). A
record that is read has exactly the values that its tree holds (`Tree.has_iff_of_record?`). From an object with some
of the members, in any order and among any others, these are read and the others are not there (`Writes.record?_eq`);
from an object that repeats one of them nothing is read (`Tree.record?_eq_none_of_repeats`). -/

namespace StateHistory.Json

namespace Tree

variable {names : List String} {values : List (Option Tree)} {name : String} {value : Tree} {tree : Tree}
  {members : List (Option String × Tree)}

/-- What a tree holds for a member of a record. -/
def Has (names : List String) (name : String) : Tree → Tree → Prop
  | object members, value => name ∈ names ∧ (some name, value) ∈ members
  | array items, value => (name, value) ∈ names.zip items
  | _, _ => False

/-- An object that has several members of one name. -/
def Repeats (name : String) (tree : Tree) : Prop :=
  ∃ members v w, tree = object members ∧ [(some name, v), (some name, w)].Sublist members

theorem record?_eq_none_of_repeats (hname : name ∈ names) (h : tree.Repeats name) : tree.record? names = none := by
  obtain ⟨members, v, w, rfl, hsub⟩ := h
  have hlength := (hsub.filter fun m => m.1 == some name).length_le
  refine if_neg fun hread => ?_
  have hunique := List.all_eq_true.mp (Bool.and_eq_true_iff.mp hread).2 name hname
  rw [decide_eq_true_eq] at hunique
  simp at hlength
  omega

theorem mem_zip_iff {α β : Type} {as : List α} {bs : List β} {a : α} {b : β} :
    (a, b) ∈ as.zip bs ↔ ∃ i : Nat, as[i]? = some a ∧ bs[i]? = some b := by
  rw [List.mem_iff_getElem?]
  exact exists_congr fun i => List.getElem?_zip_eq_some

theorem getElem?_padded {items : List Tree} {n i : Nat} :
    (items.map some ++ List.replicate n none)[i]? = some (some value) ↔ items[i]? = some value := by
  rw [List.getElem?_append, List.length_map]
  split
  · rw [List.getElem?_map, Option.map_eq_some_iff]
    simp
  · rename_i hbehind
    rw [List.getElem?_replicate, List.getElem?_eq_none (Nat.not_lt.mp hbehind)]
    simp

/-- The first member of a name is the only one. -/
theorem find?_eq_some_iff_mem (hunique : (members.filter fun m => m.1 == some name).length ≤ 1) :
    (members.find? fun m => m.1 == some name).map Prod.snd = some value ↔ (some name, value) ∈ members := by
  rw [← List.head?_filter]
  have hmem : (some name, value) ∈ members ↔ (some name, value) ∈ members.filter fun m => m.1 == some name := by
    simp
  have hnames : ∀ m ∈ members.filter fun m => m.1 == some name, m.1 = some name := by
    intro m hm
    exact eq_of_beq (List.mem_filter.mp hm).2
  rw [hmem]
  generalize members.filter (fun m => m.1 == some name) = found at hunique hnames
  match found, hunique with
  | [], _ => simp
  | [m], _ =>
      obtain ⟨key, v⟩ := m
      obtain rfl : key = some name := hnames _ (List.mem_singleton_self _)
      simp [eq_comm]

theorem has_iff_of_record? (h : tree.record? names = some values) :
    tree.Has names name value ↔ (name, some value) ∈ names.zip values := by
  unfold record? at h
  split at h
  · obtain ⟨hlength, h⟩ := Option.ite_none_right_eq_some.mp h
    cases h
    rw [mem_zip_iff]
    simp only [getElem?_padded]
    exact mem_zip_iff
  · obtain ⟨hread, h⟩ := Option.ite_none_right_eq_some.mp h
    cases h
    have hunique := List.all_eq_true.mp (Bool.and_eq_true_iff.mp hread).2
    rw [← List.map_prod_left_eq_zip, List.mem_map]
    constructor
    · rintro ⟨hname, hmem⟩
      have hfind := (find?_eq_some_iff_mem (of_decide_eq_true (hunique name hname))).mpr hmem
      exact ⟨name, hname, congrArg (Prod.mk name) hfind⟩
    · rintro ⟨n, hname, heq⟩
      obtain ⟨rfl, hfind⟩ := Prod.mk.inj heq
      exact ⟨hname, (find?_eq_some_iff_mem (of_decide_eq_true (hunique n hname))).mp hfind⟩
  · cases h

end Tree

/-! ### Writing -/

variable {known : List (String × Option Tree)} {name : String} {value : Option Tree} {tree : Tree}

/-- The members that are written for some names: those that have a value. -/
def written (known : List (String × Option Tree)) : List (Option String × Tree) :=
  known.filterMap fun (name, value) => value.map (some name, ·)

/-- An object with the members that are written for some names, in any order, and any others among them. -/
def Writes (known : List (String × Option Tree)) (tree : Tree) : Prop :=
  ∃ members others, tree = .object members ∧ members.Perm (written known ++ others) ∧
    ∀ m ∈ others, ∃ name, m.1 = some name ∧ name ∉ known.map Prod.fst

theorem exists_name_of_mem_written {m : Option String × Tree} (h : m ∈ written known) :
    ∃ name ∈ known.map Prod.fst, m.1 = some name := by
  obtain ⟨⟨name, value⟩, hknown, hwrite⟩ := List.mem_filterMap.mp h
  obtain ⟨t, -, rfl⟩ := Option.map_eq_some_iff.mp hwrite
  exact ⟨name, List.mem_map.mpr ⟨_, hknown, rfl⟩, rfl⟩

theorem filter_others {others : List (Option String × Tree)}
    (h : ∀ m ∈ others, ∃ other, m.1 = some other ∧ other ≠ name) :
    others.filter (fun m => m.1 == some name) = [] := by
  refine List.filter_eq_nil_iff.mpr fun m hm heq => ?_
  obtain ⟨other, hother, hne⟩ := h m hm
  exact hne (Option.some.inj (hother.symm.trans (eq_of_beq heq)))

theorem filter_written (hnodup : (known.map Prod.fst).Nodup) (h : (name, value) ∈ known) :
    (written known).filter (fun m => m.1 == some name) = (value.map (some name, ·)).toList := by
  induction known with
  | nil => cases h
  | cons first known ih =>
      obtain ⟨n, v⟩ := first
      obtain ⟨hfirst, hnodup⟩ := List.nodup_cons.mp hnodup
      have hwritten : written ((n, v) :: known) = (v.map (some n, ·)).toList ++ written known := by
        cases v <;> rfl
      rw [hwritten, List.filter_append]
      by_cases heq : (name, value) = (n, v)
      · obtain ⟨rfl, rfl⟩ := Prod.mk.inj heq
        have hnone : (written known).filter (fun m => m.1 == some name) = [] := by
          refine filter_others fun m hm => ?_
          obtain ⟨other, hother, hm⟩ := exists_name_of_mem_written hm
          exact ⟨other, hm, fun heq => hfirst (heq ▸ hother)⟩
        rw [hnone, List.append_nil]
        cases value <;> simp
      · have hmem := (List.mem_cons.mp h).resolve_left heq
        have hne : n ≠ name := by
          rintro rfl
          exact hfirst (List.mem_map.mpr ⟨_, hmem, rfl⟩)
        rw [ih hnodup hmem]
        cases v with
        | none => rfl
        | some t => simp [hne]

/-- The members of a name that stand in an object: the written one. -/
theorem Writes.exists_filter_eq (h : Writes known tree) (hnodup : (known.map Prod.fst).Nodup) :
    ∃ members, tree = .object members ∧ members.all (fun m => m.1.isSome) = true ∧
      ∀ name value, (name, value) ∈ known →
        members.filter (fun m => m.1 == some name) = (value.map (some name, ·)).toList := by
  obtain ⟨members, others, rfl, hperm, hothers⟩ := h
  refine ⟨members, rfl, List.all_eq_true.mpr fun m hm => ?_, fun name value hknown => ?_⟩
  · have hname : ∃ name, m.1 = some name := by
      rcases List.mem_append.mp (hperm.mem_iff.mp hm) with hm | hm
      · exact (exists_name_of_mem_written hm).imp fun name h => h.2
      · exact (hothers m hm).imp fun name h => h.1
    exact Option.isSome_iff_exists.mpr hname
  · have hnone := filter_others fun m hm => (hothers m hm).imp fun other h =>
      ⟨h.1, fun heq => h.2 (heq ▸ List.mem_map.mpr ⟨_, hknown, rfl⟩)⟩
    have hperm := hperm.filter fun m => m.1 == some name
    rw [List.filter_append, filter_written hnodup hknown, hnone, List.append_nil] at hperm
    cases value with
    | none => exact hperm.eq_nil
    | some value => exact hperm.eq_singleton

/-- What is written is read. -/
theorem Writes.record?_eq (h : Writes known tree) (hnodup : (known.map Prod.fst).Nodup) :
    tree.record? (known.map Prod.fst) = some (known.map Prod.snd) := by
  obtain ⟨members, rfl, hkeys, hfilter⟩ := h.exists_filter_eq hnodup
  have hunique : (known.map Prod.fst).all (fun n => (members.filter fun m => m.1 == some n).length ≤ 1) = true := by
    refine List.all_eq_true.mpr fun n hn => ?_
    obtain ⟨⟨n, v⟩, hknown, rfl⟩ := List.mem_map.mp hn
    rw [decide_eq_true_eq, hfilter n v hknown]
    cases v <;> simp
  refine (if_pos (Bool.and_eq_true_iff.mpr ⟨hkeys, hunique⟩)).trans (congrArg some ?_)
  rw [List.map_map]
  refine List.map_congr_left fun p hp => ?_
  obtain ⟨n, v⟩ := p
  change (members.find? fun m => m.1 == some n).map Prod.snd = v
  rw [← List.head?_filter, hfilter n v hp]
  cases v <;> rfl

end StateHistory.Json
