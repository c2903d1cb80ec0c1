import StateHistory.Proofs.Follow.Survivors

/-! # Changes of fork

A block at or below the height of the block before it belongs to another fork. A progress does not keep the last
height; it compares with the height that is expected next, and as long as there is a height above the last one that
comes to the same (`forks_record_iff`). So after any blocks the answer depends on the last one only, however the
heights went up and down before, and whatever remembered positions a block replaces, it is reported
(`forks_after_iff`). There is no height above the largest one: a second block there is taken for the one that was
expected (`largest_height_repeated`). -/

namespace StateHistory.Progress

theorem lt_successor_iff {m n : UInt32} : m < successor n ↔ m ≤ n ∧ m ≠ 0xffffffff := by
  have hm := m.toNat_lt
  rw [UInt32.lt_iff_toNat_lt, toNat_successor, UInt32.le_iff_toNat_le, Ne, ← UInt32.toNat_inj]
  simp only [UInt32.reduceToNat]
  omega

/-- Before the first block there is no fork to change. -/
theorem forks_start (first : UInt32) (block : BlockPosition) : (start first).forks block = false := by
  rw [forks, start, decide_eq_false (Nat.lt_irrefl 0), Bool.and_false]

/-- After a block, only its height matters. -/
theorem forks_record_iff (p : Progress) (last : BlockPosition) (lastIrreversible : UInt32) (block : BlockPosition) :
    (p.record last lastIrreversible).forks block = true ↔
      block.number ≤ last.number ∧ block.number ≠ 0xffffffff := by
  have hreceived : 0 < (p.record last lastIrreversible).received := Nat.succ_pos p.received
  have hnext : (p.record last lastIrreversible).nextBlock = successor last.number := rfl
  rw [forks, decide_eq_true hreceived, Bool.and_true, hnext, decide_eq_true_iff, lt_successor_iff]

theorem le_last_of_mem {first : UInt32} {earlier : List (BlockPosition × UInt32)} {q : BlockPosition}
    (hq : q ∈ ((start first).after earlier).positions) :
    ∃ last lastIrreversible, earlier.getLast? = some (last, lastIrreversible) ∧ q.number ≤ last.number := by
  rcases List.eq_nil_or_concat' earlier with rfl | ⟨before, ⟨last, lastIrreversible⟩, rfl⟩
  · cases hq
  · refine ⟨last, lastIrreversible, List.getLast?_concat, ?_⟩
    have hbelow := keepBelow_lt last.number (ascending_after first before)
    rw [after_concat] at hq
    rcases List.mem_append.mp ((record_positions_suffix _ _ _).subset hq) with hq | hq
    · exact UInt32.le_of_lt (hbelow q hq)
    · rw [List.mem_singleton.mp hq]
      exact UInt32.le_refl _

/-- After any blocks, a block is reported as one of another fork if there was a block before and its height is at or
below that of the last one, unless it has the largest height there is. In particular a block below the largest
height is reported whenever it is at or below a position that is still remembered. -/
theorem forks_after_iff (first : UInt32) (earlier : List (BlockPosition × UInt32)) (block : BlockPosition) :
    (((start first).after earlier).forks block = true ↔
        ∃ last lastIrreversible, earlier.getLast? = some (last, lastIrreversible) ∧
          block.number ≤ last.number ∧ block.number ≠ 0xffffffff) ∧
      ((∃ q ∈ ((start first).after earlier).positions, block.number ≤ q.number) → block.number ≠ 0xffffffff →
        ((start first).after earlier).forks block = true) := by
  have hforks : ((start first).after earlier).forks block = true ↔
      ∃ last lastIrreversible, earlier.getLast? = some (last, lastIrreversible) ∧
        block.number ≤ last.number ∧ block.number ≠ 0xffffffff := by
    rcases List.eq_nil_or_concat' earlier with rfl | ⟨before, ⟨last, lastIrreversible⟩, rfl⟩
    · simp [after, forks_start]
    · rw [after_concat, forks_record_iff, List.getLast?_concat]
      simp
  refine ⟨hforks, ?_⟩
  rintro ⟨q, hq, hle⟩ hlargest
  obtain ⟨last, lastIrreversible, hlast, hbelow⟩ := le_last_of_mem hq
  exact hforks.mpr ⟨last, lastIrreversible, hlast, UInt32.le_trans hle hbelow, hlargest⟩

/-- A block of the largest height after another one there replaces it and is not reported. -/
theorem largest_height_repeated : ∃ last block : BlockPosition,
    last ≠ block ∧ block.number ≤ last.number ∧ ((start 0).after [(last, 0)]).positions = [last] ∧
      ((start 0).after [(last, 0)]).forks block = false ∧
      ((start 0).after [(last, 0), (block, 0)]).positions = [block] :=
  ⟨⟨0xffffffff, .fill 32 1⟩, ⟨0xffffffff, .fill 32 2⟩, by decide, by decide, by decide, by decide, by decide⟩

theorem forks_after_iff_fallback : ∃ q ∈ ((start 0).after [(⟨7, .fill 32 1⟩, 0)]).positions, (5 : UInt32) ≤ q.number ∧
    ((start 0).after [(⟨7, .fill 32 1⟩, 0)]).forks ⟨5, .fill 32 2⟩ = true := by
  have hq : (⟨7, .fill 32 1⟩ : BlockPosition) ∈ ((start 0).after [(⟨7, .fill 32 1⟩, 0)]).positions := by decide
  exact ⟨_, hq, by decide,
    (forks_after_iff 0 [(⟨7, .fill 32 1⟩, 0)] ⟨5, .fill 32 2⟩).2 ⟨_, hq, by decide⟩ (by decide)⟩

end StateHistory.Progress
