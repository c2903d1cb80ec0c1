import Mathlib.Data.List.Basic
import StateHistory.Follow.Progress
import StateHistory.Message.Retention

/-! # What a follower remembers

`Progress.after` is the progress after a list of blocks, each with the last irreversible height of its
report. Whatever blocks there were, the remembered positions ascend, are not too many, belong to blocks
that were received, and lie below the height that is expected next, unless the heights are exhausted
(`Progress.Sound`).

A stream that is resumed at a height skips only heights that the node does not have
(`not_available_of_lt_resumeStart`). -/

namespace StateHistory

namespace Progress

/-- The progress after blocks, each with the last irreversible height of its report. -/
def after (p : Progress) (blocks : List (BlockPosition × UInt32)) : Progress :=
  blocks.foldl (fun p b => p.record b.1 b.2) p

theorem after_append (p : Progress) (bs bs' : List (BlockPosition × UInt32)) :
    p.after (bs ++ bs') = (p.after bs).after bs' :=
  List.foldl_append

theorem after_concat (p : Progress) (bs : List (BlockPosition × UInt32)) (b : BlockPosition × UInt32) :
    p.after (bs ++ [b]) = (p.after bs).record b.1 b.2 := by
  rw [after_append]
  rfl

/-- The height after the last block is expected next. -/
theorem nextBlock_after (p : Progress) (bs : List (BlockPosition × UInt32)) :
    (p.after bs).nextBlock =
      match bs.getLast? with
      | some b => successor b.1.number
      | none => p.nextBlock := by
  rcases List.eq_nil_or_concat' bs with rfl | ⟨bs', b, rfl⟩
  · rfl
  · rw [after_concat, List.getLast?_concat]
    rfl

/-! ### Remembered positions -/

/-- Positions that ascend in height. -/
def Ascending (ps : List BlockPosition) : Prop := ps.Pairwise fun a b => a.number < b.number

theorem prefix_keepBelow (height : UInt32) (ps : List BlockPosition) : keepBelow height ps <+: ps := by
  have h := (List.dropWhile_suffix (fun p : BlockPosition => decide (height ≤ p.number)) (l := ps.reverse))
  rw [← List.reverse_prefix, List.reverse_reverse] at h
  exact h

theorem dropWhile_lt {height : UInt32} {ps : List BlockPosition}
    (h : ps.Pairwise fun a b => b.number < a.number) :
    ∀ q ∈ ps.dropWhile fun p => decide (height ≤ p.number), q.number < height := by
  induction ps with
  | nil => simp
  | cons p ps ih =>
      rw [List.pairwise_cons] at h
      by_cases hp : height ≤ p.number
      · rw [List.dropWhile_cons_of_pos (by simpa using hp)]
        exact ih h.2
      · rw [List.dropWhile_cons_of_neg (by simpa using hp)]
        have hlt : p.number < height := UInt32.not_le.mp hp
        intro q hq
        rcases List.mem_cons.mp hq with rfl | hq
        · exact hlt
        · exact UInt32.lt_trans (h.1 q hq) hlt

/-- What is kept of ascending positions lies below the height. -/
theorem keepBelow_lt (height : UInt32) {ps : List BlockPosition} (h : Ascending ps) :
    ∀ q ∈ keepBelow height ps, q.number < height := by
  intro q hq
  exact dropWhile_lt (List.pairwise_reverse.mpr h) q (List.mem_reverse.mp hq)

theorem dropIrreversible_suffix (lastIrreversible : UInt32) (ps : List BlockPosition) :
    dropIrreversible lastIrreversible ps <:+ ps :=
  List.dropWhile_suffix _

theorem latest_suffix (ps : List BlockPosition) : latest ps <:+ ps := List.drop_suffix _ _

theorem length_latest_le (ps : List BlockPosition) : (latest ps).length ≤ maxPositions := by
  rw [latest, List.length_drop]
  omega

theorem record_positions (p : Progress) (b : BlockPosition) (lastIrreversible : UInt32) :
    (p.record b lastIrreversible).positions =
      latest (dropIrreversible lastIrreversible (keepBelow b.number p.positions ++ [b])) := by
  rw [record]

/-- The positions after a block are the last ones of those kept below it and of the block itself. -/
theorem record_positions_suffix (p : Progress) (b : BlockPosition) (lastIrreversible : UInt32) :
    (p.record b lastIrreversible).positions <:+ keepBelow b.number p.positions ++ [b] := by
  rw [record_positions]
  exact (latest_suffix _).trans (dropIrreversible_suffix _ _)

/-- What holds of a progress after blocks of which `seen` are the positions. -/
structure Sound (seen : List BlockPosition) (p : Progress) : Prop where
  ascending : Ascending p.positions
  length_le : p.positions.length ≤ maxPositions
  mem_seen : ∀ q ∈ p.positions, q ∈ seen
  /-- Above the largest height there is none. -/
  below : ∀ q ∈ p.positions, q.number < p.nextBlock ∨ q.number = 0xffffffff

theorem start_sound (block : UInt32) : Sound [] (start block) where
  ascending := List.Pairwise.nil
  length_le := by simp [start]
  mem_seen := by simp [start]
  below := by simp [start]

theorem lt_successor {m n : UInt32} (h : m ≤ n) : m < successor n ∨ m = 0xffffffff := by
  rw [successor]
  split
  · rename_i hn
    rw [← hn]
    exact UInt32.lt_or_eq_of_le h
  · rename_i hn
    left
    rw [UInt32.lt_iff_toNat_lt, UInt32.toNat_add]
    rw [UInt32.le_iff_toNat_le] at h
    have hne : n.toNat ≠ 4294967295 := fun h => hn (UInt32.toNat_inj.mp h)
    have hlt := n.toNat_lt
    simp only [UInt32.reduceToNat]
    omega

theorem Sound.record {seen : List BlockPosition} {p : Progress} (h : Sound seen p) (b : BlockPosition)
    (lastIrreversible : UInt32) : Sound (seen ++ [b]) (p.record b lastIrreversible) := by
  have hsuffix := record_positions_suffix p b lastIrreversible
  have hlt := keepBelow_lt b.number h.ascending
  have hascending : Ascending (keepBelow b.number p.positions ++ [b]) := by
    refine List.pairwise_append.mpr ⟨?_, List.pairwise_singleton _ _, ?_⟩
    · exact h.ascending.sublist (prefix_keepBelow _ _).sublist
    · intro q hq x hx
      rw [List.mem_singleton.mp hx]
      exact hlt q hq
  constructor
  case ascending => exact hascending.sublist hsuffix.sublist
  case length_le =>
    rw [record_positions]
    exact length_latest_le _
  case mem_seen =>
    intro q hq
    rcases List.mem_append.mp (hsuffix.subset hq) with hq | hq
    · exact List.mem_append_left _ (h.mem_seen q ((prefix_keepBelow _ _).subset hq))
    · exact List.mem_append_right _ hq
  case below =>
    intro q hq
    apply lt_successor
    rcases List.mem_append.mp (hsuffix.subset hq) with hq | hq
    · exact UInt32.le_of_lt (hlt q hq)
    · rw [List.mem_singleton.mp hq]
      exact UInt32.le_refl _

/-- Whatever blocks are received, a progress stays sound. -/
theorem Sound.after {seen : List BlockPosition} {p : Progress} (h : Sound seen p)
    (bs : List (BlockPosition × UInt32)) : Sound (seen ++ bs.map Prod.fst) (p.after bs) := by
  induction bs generalizing seen p with
  | nil => simpa [Progress.after] using h
  | cons b bs ih =>
      have hrest := ih (h.record b.1 b.2)
      rw [List.append_assoc] at hrest
      exact hrest

/-! ### Progress that differs in its counts -/

/-- Two progresses from which a stream is resumed in the same way. -/
structure Agrees (p q : Progress) : Prop where
  nextBlock : q.nextBlock = p.nextBlock
  positions : q.positions = p.positions

theorem Agrees.record {p q : Progress} (h : p.Agrees q) (b : BlockPosition) (lastIrreversible : UInt32) :
    (p.record b lastIrreversible).Agrees (q.record b lastIrreversible) where
  nextBlock := rfl
  positions := by rw [record_positions, record_positions, h.positions]

end Progress

/-! ### What the node has -/

/-- No available range reaches below the oldest available height. -/
theorem availableStart_le {status : ChainStatus} {r : BlockRange} (h : r ∈ status.availableRanges) :
    status.availableStart ≤ r.first := by
  have hmem : r.first ∈ status.availableRanges.map (·.first) := List.mem_map_of_mem h
  rw [ChainStatus.availableStart]
  cases hmin : (status.availableRanges.map (·.first)).min? with
  | none =>
      rw [List.min?_eq_none_iff] at hmin
      rw [hmin] at hmem
      cases hmem
  | some m => exact (List.min?_eq_some_iff.mp hmin).2 _ hmem

theorem le_resumeStart (status : ChainStatus) (next : UInt32) : next ≤ status.resumeStart next := by
  rw [show status.resumeStart next =
    if next ≤ status.availableStart then status.availableStart else next from rfl]
  split
  · assumption
  · exact UInt32.le_refl _

/-- A stream that is resumed skips no height that the node has. -/
theorem not_available_of_lt_resumeStart {status : ChainStatus} {next n : UInt32} {r : BlockRange}
    (hr : r = status.traces ∨ r = status.chainState) (hnext : next ≤ n) (hn : n < status.resumeStart next) :
    ¬ (r.first ≤ n ∧ n < r.past) := by
  rintro ⟨hfirst, hpast⟩
  have havailable : r ∈ status.availableRanges := by
    rw [ChainStatus.availableRanges, List.mem_filter, BlockRange.available]
    refine ⟨by simpa using hr, ?_⟩
    exact decide_eq_true (UInt32.lt_of_le_of_lt hfirst hpast)
  have hstart := UInt32.le_trans (availableStart_le havailable) hfirst
  have hresume : status.resumeStart next ≤ n := by
    rw [show status.resumeStart next =
      if next ≤ status.availableStart then status.availableStart else next from rfl]
    split
    · exact hstart
    · exact hnext
  exact UInt32.not_lt.mpr hresume hn

end StateHistory
