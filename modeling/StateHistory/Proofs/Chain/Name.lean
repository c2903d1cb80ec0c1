import Mathlib.Data.List.DropRight
import Mathlib.Data.List.GetD
import StateHistory.Chain.Name

/-! # Names and words

A word of 64 bits is twelve groups of five bits and one of four (`Name.groups_eq`). Groups that are put together
again make the same word (`Name.join_groups`), and no others of the same sizes do (`Name.join_inj`). The dots that are
dropped at the end of a name are those that fill it up to thirteen letters (`Name.padded_dropDots`), so nothing is
lost with them: rendering goes through all proper names once, and packing is its inverse
(`Name.render_eq_iff_pack`). -/

namespace StateHistory.Name

/-! ### Letters -/

/-- The value of a letter: its place in the alphabet. -/
def value (c : Char) : Nat := alphabet.idxOf c

theorem value_letter : ∀ i < 32, value (letter i) = i := by decide

theorem letter_mem : ∀ i < 32, letter i ∈ alphabet := by decide

theorem letter_mem_take : ∀ i < 16, letter i ∈ alphabet.take 16 := by decide

theorem letter_value {c : Char} (h : c ∈ alphabet) : letter (value c) = c := by
  have hlt : alphabet.idxOf c < alphabet.length := List.idxOf_lt_length_of_mem h
  rw [letter, value, List.getD_eq_getElem _ _ hlt]
  exact List.idxOf_get hlt

theorem value_lt {c : Char} (h : c ∈ alphabet) : value c < 32 := List.idxOf_lt_length_of_mem h

theorem value_lt_of_mem_take {c : Char} (h : c ∈ alphabet.take 16) : value c < 16 :=
  (List.mem_take_iff_idxOf_lt (List.mem_of_mem_take h)).mp h

theorem map_value_letter {gs : List Nat} (h : ∀ g ∈ gs, g < 32) : (gs.map letter).map value = gs := by
  rw [List.map_map]
  exact (List.map_congr_left fun g hg => value_letter g (h g hg)).trans (List.map_id _)

theorem map_letter_value {cs : List Char} (h : ∀ c ∈ cs, c ∈ alphabet) : (cs.map value).map letter = cs := by
  rw [List.map_map]
  exact (List.map_congr_left fun c hc => letter_value (h c hc)).trans (List.map_id _)

/-! ### Dots -/

/-- Thirteen letters: dots stand for those that are missing. -/
def padded (cs : List Char) : List Char := cs ++ List.replicate (13 - cs.length) '.'

theorem dropDots_eq (cs : List Char) : dropDots cs = cs.rdropWhile (· == '.') := rfl

theorem padded_dropDots {cs : List Char} (h : cs.length = 13) : padded (dropDots cs) = cs := by
  have hsplit : dropDots cs ++ cs.rtakeWhile (· == '.') = cs := by
    rw [dropDots_eq, List.rdropWhile_append_rtakeWhile]
  have hlength := congrArg List.length hsplit
  rw [List.length_append, h] at hlength
  have hdots : cs.rtakeWhile (· == '.') = List.replicate (13 - (dropDots cs).length) '.' := by
    rw [List.eq_replicate_iff]
    exact ⟨by omega, fun c hc => by simpa using List.mem_rtakeWhile_imp hc⟩
  rw [padded, ← hdots, hsplit]

theorem dropDots_of_last {cs : List Char} (h : cs.getLast? ≠ some '.') : dropDots cs = cs := by
  rw [dropDots_eq, List.rdropWhile_eq_self_iff]
  refine fun hne hdot => h ?_
  rw [List.getLast?_eq_some_getLast hne]
  simpa using hdot

theorem dropDots_padded {cs : List Char} (h : cs.getLast? ≠ some '.') : dropDots (padded cs) = cs := by
  rw [padded, dropDots, List.reverse_append, List.reverse_replicate, List.dropWhile_append_of_pos (by simp)]
  exact dropDots_of_last h

theorem getLast?_dropDots (cs : List Char) : (dropDots cs).getLast? ≠ some '.' := by
  rw [dropDots_eq]
  intro h
  have hne : cs.rdropWhile (· == '.') ≠ [] := by
    intro hnil
    rw [hnil] at h
    cases h
  have hlast := List.rdropWhile_last_not (· == '.') cs hne
  rw [List.getLast?_eq_some_getLast hne] at h
  exact hlast (beq_iff_eq.mpr (Option.some.inj h))

/-! ### Groups -/

/-- Groups of five bits, put together from the top. -/
def join (gs : List Nat) : Nat := gs.foldl (fun w g => 32 * w + g) 0

theorem join_concat (gs : List Nat) (g : Nat) : join (gs ++ [g]) = 32 * join gs + g := List.foldl_concat ..

theorem join_lt {gs : List Nat} (h : ∀ g ∈ gs, g < 32) : join gs < Nat.pow 32 gs.length := by
  induction gs using List.reverseRecOn with
  | nil => exact Nat.one_pos
  | append_singleton gs g ih =>
      obtain ⟨hgs, hg⟩ := List.forall_mem_append.mp h
      have hlast := hg g (List.mem_singleton_self g)
      have hjoin := ih hgs
      have hpow : Nat.pow 32 (gs ++ [g]).length = Nat.pow 32 gs.length * 32 := by
        rw [List.length_append]
        rfl
      rw [join_concat, hpow]
      omega

/-- The first groups of a word spell its highest bits. -/
theorem join_groups {v : Nat} (hv : v < UInt64.size) {n : Nat} (hn : n ≤ 12) :
    join ((List.range n).map fun i => v / Nat.pow 2 (59 - 5 * i) % 32) = v / Nat.pow 2 (64 - 5 * n) := by
  induction n with
  | zero => exact (Nat.div_eq_of_lt hv).symm
  | succ n ih =>
      have hshift : Nat.pow 2 (64 - 5 * n) = Nat.pow 2 (59 - 5 * n) * 32 := by
        rw [show 64 - 5 * n = 59 - 5 * n + 5 by omega]
        exact Nat.pow_add 2 (59 - 5 * n) 5
      have hnext : 64 - 5 * (n + 1) = 59 - 5 * n := by omega
      rw [List.range_succ, List.map_append, List.map_singleton, join_concat, ih (by omega), hshift, hnext,
        ← Nat.div_div_eq_div_mul]
      exact Nat.div_add_mod _ 32

theorem join_inj {gs gs' : List Nat} (hlength : gs.length = gs'.length) (h : ∀ g ∈ gs, g < 32)
    (h' : ∀ g ∈ gs', g < 32) (hjoin : join gs = join gs') : gs = gs' := by
  induction gs using List.reverseRecOn generalizing gs' with
  | nil => exact (List.length_eq_zero_iff.mp hlength.symm).symm
  | append_singleton gs g ih =>
      rcases List.eq_nil_or_concat' gs' with rfl | ⟨gs', g', rfl⟩
      · simp at hlength
      · obtain ⟨hgs, hg⟩ := List.forall_mem_append.mp h
        obtain ⟨hgs', hg'⟩ := List.forall_mem_append.mp h'
        have hlast := hg g (List.mem_singleton_self g)
        have hlast' := hg' g' (List.mem_singleton_self g')
        rw [join_concat, join_concat] at hjoin
        rw [ih (by simpa using hlength) hgs hgs' (by omega), show g = g' by omega]

/-! ### Words -/

theorem groups_eq (v : UInt64) : ∃ tops : List Nat, groups v = tops ++ [v.toNat % 16] ∧ tops.length = 12 ∧
    (∀ g ∈ tops, g < 32) ∧ join tops = v.toNat / 16 := by
  refine ⟨_, rfl, by simp, ?_, join_groups v.toNat_lt (Nat.le_refl 12)⟩
  intro g hg
  obtain ⟨i, -, rfl⟩ := List.mem_map.mp hg
  exact Nat.mod_lt _ (by decide)

theorem groups_lt {v : UInt64} : ∀ g ∈ groups v, g < 32 := by
  obtain ⟨tops, hgroups, -, htops, -⟩ := groups_eq v
  have hlow : v.toNat % 16 < 32 := Nat.lt_trans (Nat.mod_lt _ (by decide)) (by decide)
  rw [hgroups]
  exact List.forall_mem_append.mpr ⟨htops, List.forall_mem_singleton.mpr hlow⟩

/-- The letters of a word before its dots are dropped. -/
theorem length_map_groups (v : UInt64) : ((groups v).map letter).length = 13 := by
  obtain ⟨tops, hgroups, hlength, -⟩ := groups_eq v
  rw [hgroups, List.length_map, List.length_append, hlength]
  rfl

/-- The word of a name: five bits for each letter from the top, and the last four for the thirteenth letter. -/
def pack (name : String) : UInt64 :=
  let gs := (padded name.toList).map value
  UInt64.ofNat (16 * join (gs.take 12) + gs.getD 12 0)

theorem pack_eq {name : String} {tops : List Nat} {low : Nat}
    (h : (padded name.toList).map value = tops ++ [low]) (hlength : tops.length = 12) :
    pack name = UInt64.ofNat (16 * join tops + low) := by
  have htops : (tops ++ [low]).take 12 = tops := by rw [← hlength, List.take_left]
  have hlow : (tops ++ [low]).getD 12 0 = low := by
    rw [List.getD_eq_getElem?_getD, ← hlength, List.getElem?_concat_length]
    rfl
  rw [pack, h, htops, hlow]

/-- Twelve groups of five bits and one of four are those of the word that they make. -/
theorem groups_ofNat {tops : List Nat} {low : Nat} (hlength : tops.length = 12) (htops : ∀ g ∈ tops, g < 32)
    (hlow : low < 16) : groups (UInt64.ofNat (16 * join tops + low)) = tops ++ [low] := by
  have hjoin := join_lt htops
  rw [hlength] at hjoin
  have hpow : Nat.pow 32 12 * 16 = UInt64.size := rfl
  have hword : (UInt64.ofNat (16 * join tops + low)).toNat = 16 * join tops + low :=
    UInt64.toNat_ofNat_of_lt' (by omega)
  obtain ⟨tops', hgroups, hlength', htops', hjoin'⟩ := groups_eq (UInt64.ofNat (16 * join tops + low))
  rw [hword] at hgroups hjoin'
  have hsame : tops' = tops := join_inj (hlength'.trans hlength.symm) htops' htops (by omega)
  rw [hgroups, hsame, show (16 * join tops + low) % 16 = low by omega]

/-! ### Names -/

/-- A name that a word can have. The thirteenth letter has only four bits. -/
structure Proper (name : List Char) : Prop where
  length_le : name.length ≤ 13
  mem_alphabet : ∀ c ∈ name, c ∈ alphabet
  last_ne_dot : name.getLast? ≠ some '.'
  thirteenth : ∀ c, name[12]? = some c → c ∈ alphabet.take 16

/-- Filled up with dots, a proper name has twelve letters of the alphabet and one of its first half. -/
theorem Proper.padded_eq {name : List Char} (h : Proper name) : ∃ tops c, padded name = tops ++ [c] ∧
    tops.length = 12 ∧ (∀ c' ∈ tops, c' ∈ alphabet) ∧ c ∈ alphabet.take 16 := by
  have hlength : (padded name).length = 13 := by
    have hle := h.length_le
    rw [padded, List.length_append, List.length_replicate]
    omega
  have hletters : ∀ c ∈ padded name, c ∈ alphabet := by
    refine List.forall_mem_append.mpr ⟨h.mem_alphabet, fun c hc => ?_⟩
    rw [List.eq_of_mem_replicate hc]
    decide
  obtain hnil | ⟨tops, c, hsplit⟩ := List.eq_nil_or_concat' (padded name)
  · rw [hnil] at hlength
    cases hlength
  have htops : tops.length = 12 := by
    rw [hsplit, List.length_append] at hlength
    exact Nat.succ.inj hlength
  have hthirteenth : (padded name)[12]? = some c := by
    rw [hsplit, ← htops, List.getElem?_concat_length]
  rw [hsplit] at hletters
  refine ⟨tops, c, hsplit, htops, (List.forall_mem_append.mp hletters).1, ?_⟩
  rw [padded, List.getElem?_append] at hthirteenth
  split at hthirteenth
  · exact h.thirteenth c hthirteenth
  · rw [List.eq_of_mem_replicate (List.mem_of_getElem? hthirteenth)]
    decide

theorem proper_render (v : UInt64) : Proper (render v).toList := by
  obtain ⟨tops, hgroups, hlength, htops, -⟩ := groups_eq v
  have hfront : (render v).toList <+: (groups v).map letter := by
    rw [render, String.toList_ofList, chars, dropDots_eq]
    exact List.rdropWhile_prefix _ _
  constructor
  · rw [← length_map_groups v]
    exact hfront.length_le
  · intro c hc
    obtain ⟨g, hg, rfl⟩ := List.mem_map.mp (hfront.subset hc)
    exact letter_mem g (groups_lt g hg)
  · rw [render, String.toList_ofList]
    exact getLast?_dropDots _
  · intro c hc
    obtain ⟨dots, hdots⟩ := hfront
    have hthirteenth : ((groups v).map letter)[12]? = some c := by
      rw [← hdots, List.getElem?_append_left (List.getElem?_eq_some_iff.mp hc).1, hc]
    rw [hgroups, List.map_append, List.map_singleton, ← hlength, ← List.length_map letter,
      List.getElem?_concat_length] at hthirteenth
    obtain rfl := Option.some.inj hthirteenth
    exact letter_mem_take _ (Nat.mod_lt _ (by decide))

theorem pack_render (v : UInt64) : pack (render v) = v := by
  obtain ⟨tops, hgroups, hlength, -, hjoin⟩ := groups_eq v
  have hvalues : (padded (render v).toList).map value = tops ++ [v.toNat % 16] := by
    rw [render, String.toList_ofList, chars, padded_dropDots (length_map_groups v), map_value_letter groups_lt,
      hgroups]
  rw [pack_eq hvalues hlength, hjoin, Nat.div_add_mod, UInt64.ofNat_toNat]

/-- The letters of a proper name are the groups of its word. -/
theorem groups_pack {name : String} (h : Proper name.toList) :
    groups (pack name) = (padded name.toList).map value := by
  obtain ⟨tops, c, hsplit, htops, hletters, hc⟩ := h.padded_eq
  have hlength : (tops.map value).length = 12 := by rw [List.length_map, htops]
  have hvalues : (padded name.toList).map value = tops.map value ++ [value c] := by
    rw [hsplit, List.map_append, List.map_singleton]
  have hbound : ∀ g ∈ tops.map value, g < 32 := by
    intro g hg
    obtain ⟨c', hc', rfl⟩ := List.mem_map.mp hg
    exact value_lt (hletters c' hc')
  rw [hvalues, pack_eq hvalues hlength]
  exact groups_ofNat hlength hbound (value_lt_of_mem_take hc)

theorem render_pack {name : String} (h : Proper name.toList) : render (pack name) = name := by
  obtain ⟨tops, c, hsplit, -, hletters, hc⟩ := h.padded_eq
  have hpadded : ∀ c' ∈ padded name.toList, c' ∈ alphabet := by
    rw [hsplit]
    exact List.forall_mem_append.mpr ⟨hletters, List.forall_mem_singleton.mpr (List.mem_of_mem_take hc)⟩
  rw [render, chars, groups_pack h, map_letter_value hpadded, dropDots_padded h.last_ne_dot, String.ofList_toList]

/-- Words and proper names are in one-to-one correspondence: a word is rendered as the only proper name that is
packed as this word. -/
theorem render_eq_iff_pack :
    (∀ v name, render v = name ↔ Proper name.toList ∧ pack name = v) ∧
      ∀ v v', render v = render v' ↔ v = v' := by
  refine ⟨fun v name => ⟨?_, ?_⟩, fun v v' => ⟨fun h => ?_, congrArg render⟩⟩
  · rintro rfl
    exact ⟨proper_render v, pack_render v⟩
  · rintro ⟨hproper, rfl⟩
    exact render_pack hproper
  · rw [← pack_render v, h, pack_render]

example : render 6138663577826885632 = "eosio" := by decide +kernel

end StateHistory.Name
