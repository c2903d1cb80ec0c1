import Mathlib.Data.List.Induction
import StateHistory.Proofs.Follow.Progress

/-! # What a progress remembers

`survivors` says of a list of blocks, with the last irreversible heights of their reports, which of them could
still be replaced: those that no later block has replaced and that no report has declared irreversible. It looks
at each block and at all that came after it, and knows nothing of how positions are kept.

A progress remembers the latest of the survivors, and all of them as long as they are not too many
(`remembers_after`). The heights of the blocks may go up and down, and so may the irreversible heights. -/

namespace StateHistory.Progress

/-- Whether a block outlasts the blocks after it: each of them lies above it, and it lies above the last
irreversible height of its own report and of every later one. -/
def Outlasts (b : BlockPosition × UInt32) (later : List (BlockPosition × UInt32)) : Prop :=
  (∀ x ∈ later, b.1.number < x.1.number) ∧ ∀ x ∈ b :: later, x.2 < b.1.number

instance (b : BlockPosition × UInt32) (later : List (BlockPosition × UInt32)) : Decidable (Outlasts b later) :=
  inferInstanceAs (Decidable (_ ∧ _))

/-- The blocks that outlast all blocks after them, in the order in which they came. -/
def survivors : List (BlockPosition × UInt32) → List BlockPosition
  | [] => []
  | b :: later => if Outlasts b later then b.1 :: survivors later else survivors later

/-! ### One block more -/

theorem outlasts_concat {b x : BlockPosition × UInt32} {later : List (BlockPosition × UInt32)} :
    Outlasts b (later ++ [x]) ↔ Outlasts b later ∧ b.1.number < x.1.number ∧ x.2 < b.1.number := by
  simp only [Outlasts, List.mem_cons, List.mem_append, List.not_mem_nil, or_false, or_imp, forall_and,
    forall_eq]
  tauto

/-- What a block of the given height and its report leave of positions, with the block itself. -/
def replaced (ps : List BlockPosition) (x : BlockPosition × UInt32) : List BlockPosition :=
  (ps.filter (fun p => p.number < x.1.number) ++ [x.1]).filter fun p => x.2 < p.number

/-- A block that comes takes away what it replaces and what its report declares irreversible. -/
theorem survivors_concat (bs : List (BlockPosition × UInt32)) (x : BlockPosition × UInt32) :
    survivors (bs ++ [x]) = replaced (survivors bs) x := by
  induction bs with
  | nil =>
      by_cases h : x.2 < x.1.number <;> simp [survivors, replaced, Outlasts, h]
  | cons b bs ih =>
      rw [List.cons_append, survivors, survivors, ih]
      by_cases hb : Outlasts b bs
      · by_cases hlt : b.1.number < x.1.number <;> by_cases hlast : x.2 < b.1.number <;>
          simp [replaced, outlasts_concat, hb, hlt, hlast]
      · simp [outlasts_concat, hb]

/-! ### Positions that are kept -/

theorem dropWhile_eq_filter {α : Type} {drop : α → Bool} {l : List α}
    (h : l.Pairwise fun a b => drop b → drop a) : l.dropWhile drop = l.filter fun a => !drop a := by
  induction l with
  | nil => rfl
  | cons a l ih =>
      obtain ⟨hfirst, hrest⟩ := List.pairwise_cons.mp h
      by_cases ha : drop a
      · rw [List.dropWhile_cons_of_pos ha, ih hrest, List.filter_cons_of_neg (by simp [ha])]
      · have hkept : ∀ b ∈ a :: l, !drop b := by
          intro b hb
          rcases List.mem_cons.mp hb with rfl | hb
          · simpa using ha
          · simpa using mt (hfirst b hb) ha
        rw [List.dropWhile_cons_of_neg ha, List.filter_eq_self.mpr hkept]

theorem keepBelow_eq_filter (height : UInt32) {ps : List BlockPosition} (h : Ascending ps) :
    keepBelow height ps = ps.filter fun p => p.number < height := by
  have hdescending : ps.reverse.Pairwise fun a b =>
      decide (height ≤ b.number) = true → decide (height ≤ a.number) = true := by
    refine (List.pairwise_reverse.mpr h).imp fun hlt hle => ?_
    exact decide_eq_true (UInt32.le_trans (of_decide_eq_true hle) (UInt32.le_of_lt hlt))
  rw [keepBelow, dropWhile_eq_filter hdescending, ← List.filter_reverse, List.reverse_reverse]
  refine List.filter_congr fun p _ => ?_
  rw [← decide_not, decide_eq_decide, UInt32.not_le]

theorem dropIrreversible_eq_filter (lastIrreversible : UInt32) {ps : List BlockPosition} (h : Ascending ps) :
    dropIrreversible lastIrreversible ps = ps.filter fun p => lastIrreversible < p.number := by
  have hdown : ps.Pairwise fun a b =>
      decide (b.number ≤ lastIrreversible) = true → decide (a.number ≤ lastIrreversible) = true := by
    refine h.imp fun hlt hle => ?_
    exact decide_eq_true (UInt32.le_trans (UInt32.le_of_lt hlt) (of_decide_eq_true hle))
  rw [dropIrreversible, dropWhile_eq_filter hdown]
  refine List.filter_congr fun p _ => ?_
  rw [← decide_not, decide_eq_decide, UInt32.not_le]

/-- Below a block that comes, ascending positions ascend up to the block. -/
theorem ascending_below (ps : List BlockPosition) (h : Ascending ps) (b : BlockPosition) :
    Ascending (ps.filter (fun p => p.number < b.number) ++ [b]) := by
  refine List.pairwise_append.mpr ⟨h.sublist List.filter_sublist, List.pairwise_singleton _ _, ?_⟩
  intro p hp q hq
  rw [List.mem_singleton.mp hq]
  exact of_decide_eq_true (List.mem_filter.mp hp).2

/-- A progress keeps the latest of what the block that comes leaves of its positions. -/
theorem record_positions_eq (p : Progress) (x : BlockPosition × UInt32) (h : Ascending p.positions) :
    (p.record x.1 x.2).positions = latest (replaced p.positions x) := by
  rw [record_positions, keepBelow_eq_filter _ h, dropIrreversible_eq_filter _ (ascending_below _ h _), replaced]

theorem replaced_suffix {ps qs : List BlockPosition} (h : ps <:+ qs) (x : BlockPosition × UInt32) :
    replaced ps x <:+ replaced qs x := by
  obtain ⟨more, hmore⟩ := h.filter fun p => decide (p.number < x.1.number)
  refine List.IsSuffix.filter _ ⟨more, ?_⟩
  rw [← List.append_assoc, hmore]

theorem latest_eq_self {ps : List BlockPosition} (h : ps.length ≤ maxPositions) : latest ps = ps := by
  rw [latest, Nat.sub_eq_zero_of_le h, List.drop_zero]

/-- The latest of positions end as these do. -/
theorem latest_concat (ps : List BlockPosition) (b : BlockPosition) : ∃ qs, latest (ps ++ [b]) = qs ++ [b] := by
  refine ⟨ps.drop ((ps ++ [b]).length - maxPositions), List.drop_append_of_le_length ?_⟩
  rw [List.length_append, List.length_singleton, maxPositions]
  omega

theorem replaced_cases (ps : List BlockPosition) (x : BlockPosition × UInt32) :
    (x.2 < x.1.number ∧ ∃ qs, replaced ps x = qs ++ [x.1]) ∨ (¬ x.2 < x.1.number ∧ replaced ps x = []) := by
  by_cases h : x.2 < x.1.number
  · refine .inl ⟨h, (ps.filter fun p => p.number < x.1.number).filter (fun p => x.2 < p.number), ?_⟩
    rw [replaced, List.filter_append, List.filter_singleton, decide_eq_true h]
    rfl
  · refine .inr ⟨h, List.filter_eq_nil_iff.mpr fun p hp hlt => h ?_⟩
    rcases List.mem_append.mp hp with hp | hp
    · exact UInt32.lt_trans (of_decide_eq_true hlt) (of_decide_eq_true (List.mem_filter.mp hp).2)
    · rw [← List.mem_singleton.mp hp]
      exact of_decide_eq_true hlt

/-! ### Runs -/

theorem ascending_after (first : UInt32) (bs : List (BlockPosition × UInt32)) :
    Ascending ((start first).after bs).positions :=
  ((start_sound first).after bs).ascending

theorem after_positions_suffix (first : UInt32) (bs : List (BlockPosition × UInt32)) :
    ((start first).after bs).positions <:+ survivors bs := by
  induction bs using List.reverseRecOn with
  | nil => exact List.suffix_rfl
  | append_singleton bs x ih =>
      rw [after_concat, record_positions_eq _ _ (ascending_after first bs), survivors_concat]
      exact (latest_suffix _).trans (replaced_suffix ih x)

/-- Nothing is forgotten as long as the survivors are not too many. -/
theorem after_positions_eq (first : UInt32) {bs : List (BlockPosition × UInt32)}
    (h : ∀ earlier, earlier <+: bs → (survivors earlier).length ≤ maxPositions) :
    ((start first).after bs).positions = survivors bs := by
  induction bs using List.reverseRecOn with
  | nil => rfl
  | append_singleton bs x ih =>
      have hearlier := ih fun earlier hpre => h earlier (hpre.trans (List.prefix_append _ _))
      have hall := h _ List.prefix_rfl
      rw [survivors_concat] at hall
      rw [after_concat, record_positions_eq _ _ (ascending_after first bs), hearlier, survivors_concat,
        latest_eq_self hall]

theorem received_after (p : Progress) (bs : List (BlockPosition × UInt32)) :
    (p.after bs).received = p.received + bs.length := by
  induction bs generalizing p with
  | nil => rfl
  | cons b bs ih =>
      have hrest := ih (p.record b.1 b.2)
      rw [show (p.record b.1 b.2).received = p.received + 1 from rfl, Nat.add_right_comm] at hrest
      exact hrest

theorem toNat_successor (n : UInt32) : (successor n).toNat = min (n.toNat + 1) 0xffffffff := by
  have hlt := n.toNat_lt
  rw [successor]
  split
  · rename_i h
    rw [h]
    rfl
  · rename_i h
    have hne : n.toNat ≠ 4294967295 := fun hn => h (UInt32.toNat_inj.mp hn)
    rw [UInt32.toNat_add]
    simp only [UInt32.reduceToNat]
    omega

/-- What a progress remembers of blocks that were received. -/
structure Remembers (blocks : List (BlockPosition × UInt32)) (p : Progress) : Prop where
  suffix_survivors : p.positions <:+ survivors blocks
  ascending : Ascending p.positions
  length_le : p.positions.length ≤ 1024
  /-- Nothing is forgotten, if there never were more survivors than are remembered. -/
  complete : (∀ earlier, earlier <+: blocks → (survivors earlier).length ≤ 1024) →
    p.positions = survivors blocks
  /-- The last block is remembered unless it is irreversible; then nothing is. -/
  ne_nil_iff : ∀ earlier block lastIrreversible, blocks = earlier ++ [(block, lastIrreversible)] →
    (p.positions ≠ [] ↔ lastIrreversible < block.number)
  last : ∀ earlier block lastIrreversible, blocks = earlier ++ [(block, lastIrreversible)] →
    p.positions ≠ [] → p.positions.getLast? = some block
  nextBlock_eq : ∀ earlier block lastIrreversible, blocks = earlier ++ [(block, lastIrreversible)] →
    p.nextBlock.toNat = min (block.number.toNat + 1) 0xffffffff
  received_eq : p.received = blocks.length

/-- Whatever blocks are recorded, in whatever order of their heights, a progress remembers the latest of those
that can still be replaced, and expects the height after the last of them next. -/
theorem remembers_after (first : UInt32) (blocks : List (BlockPosition × UInt32)) :
    Remembers blocks ((start first).after blocks) := by
  have hlast : ∀ earlier block lastIrreversible, blocks = earlier ++ [(block, lastIrreversible)] →
      (lastIrreversible < block.number ∧ ∃ qs, ((start first).after blocks).positions = qs ++ [block]) ∨
        (¬ lastIrreversible < block.number ∧ ((start first).after blocks).positions = []) := by
    rintro earlier block lastIrreversible rfl
    rw [after_concat, record_positions_eq _ _ (ascending_after first earlier)]
    rcases replaced_cases ((start first).after earlier).positions (block, lastIrreversible) with
      ⟨h, qs, hqs⟩ | ⟨h, hnil⟩
    · rw [hqs]
      exact .inl ⟨h, latest_concat qs block⟩
    · rw [hnil]
      exact .inr ⟨h, rfl⟩
  constructor
  case suffix_survivors => exact after_positions_suffix first blocks
  case ascending => exact ascending_after first blocks
  case length_le => exact ((start_sound first).after blocks).length_le
  case complete => exact after_positions_eq first
  case ne_nil_iff =>
    intro earlier block lastIrreversible hblocks
    rcases hlast earlier block lastIrreversible hblocks with ⟨h, qs, hqs⟩ | ⟨h, hnil⟩
    · simp [hqs, h]
    · simp [hnil, h]
  case last =>
    intro earlier block lastIrreversible hblocks hne
    rcases hlast earlier block lastIrreversible hblocks with ⟨h, qs, hqs⟩ | ⟨h, hnil⟩
    · rw [hqs, List.getLast?_concat]
    · exact absurd hnil hne
  case nextBlock_eq =>
    rintro earlier block lastIrreversible rfl
    rw [after_concat]
    exact toNat_successor block.number
  case received_eq => rw [received_after, start, Nat.zero_add]

end StateHistory.Progress
