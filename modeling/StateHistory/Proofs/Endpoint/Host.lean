import Mathlib.Data.Bool.AllAny
import StateHistory.Endpoint.Url
import StateHistory.Proofs.Binary.Numbers
import StateHistory.Proofs.Schema.Declaration

/-! # What hosts are made of

A host that has a normal form holds nothing that means something elsewhere in a location. A name holds no character
that is forbidden in it, apart from percent signs (`Host.not_isForbidden_of_ofName`): percent-decoding keeps every such
character, and domain names refuse it. An address of version 6 consists of hexadecimal digits, colons and points, and
it has a colon (`Address.chars_of_ipv6?`, `Address.colon_of_ipv6?`). -/

namespace StateHistory

/-! ### ASCII characters in texts -/

namespace Bytes

theorem ofText_eq_flatMap (s : String) : ofText s = s.toList.flatMap String.utf8EncodeChar := by
  have hbytes : ofText s = s.toByteArray.data.toList := toList_loop s.toByteArray 0 []
  rw [hbytes, ← String.utf8Encode_toList, List.utf8Encode, List.toList_data_toByteArray]

theorem toNat_eq_of_mem_utf8EncodeChar {b : UInt8} {c : Char} (hb : b.toNat < 128)
    (h : b ∈ String.utf8EncodeChar c) : c.toNat = b.toNat := by
  have hc : c.val.toNat = c.toNat := rfl
  unfold String.utf8EncodeChar at h
  simp only [hc] at h
  split at h
  · rw [List.mem_singleton.mp h, UInt8.toNat_ofNat']
    omega
  · exfalso
    have hlead : ∀ n : Nat, 128 ≤ n → n < 256 → b ≠ UInt8.ofNat n := by
      rintro n hlow hhigh rfl
      rw [UInt8.toNat_ofNat_of_lt' hhigh] at hb
      omega
    split at h
    · rcases List.mem_cons.mp h with h | h
      · exact hlead _ (by omega) (by omega) h
      · exact hlead _ (by omega) (by omega) (List.mem_singleton.mp h)
    split at h
    · rcases List.mem_cons.mp h with h | h
      · exact hlead _ (by omega) (by omega) h
      rcases List.mem_cons.mp h with h | h
      · exact hlead _ (by omega) (by omega) h
      · exact hlead _ (by omega) (by omega) (List.mem_singleton.mp h)
    · rcases List.mem_cons.mp h with h | h
      · exact hlead _ (by omega) (by omega) h
      rcases List.mem_cons.mp h with h | h
      · exact hlead _ (by omega) (by omega) h
      rcases List.mem_cons.mp h with h | h
      · exact hlead _ (by omega) (by omega) h
      · exact hlead _ (by omega) (by omega) (List.mem_singleton.mp h)

theorem utf8EncodeChar_of_lt {c : Char} (hc : c.toNat < 128) : String.utf8EncodeChar c = [UInt8.ofNat c.toNat] := by
  unfold String.utf8EncodeChar
  exact if_pos (Nat.le_of_lt_succ hc)

theorem mem_toList_of_mem_ofText {c : Char} {s : String} (hc : c.toNat < 128) (h : UInt8.ofNat c.toNat ∈ ofText s) :
    c ∈ s.toList := by
  have hbyte : (UInt8.ofNat c.toNat).toNat = c.toNat := UInt8.toNat_ofNat_of_lt' (Nat.lt_trans hc (by decide))
  rw [ofText_eq_flatMap, List.mem_flatMap] at h
  obtain ⟨d, hd, hmem⟩ := h
  have hsame := toNat_eq_of_mem_utf8EncodeChar (by omega) hmem
  rw [hbyte] at hsame
  rwa [← Char.toNat_inj.mp hsame]

end Bytes

/-! ### Names -/

theorem ascii_forall {p : Char → Prop} (h : ∀ n < 128, p (Char.ofNat n)) {c : Char} (hc : c.toNat < 128) : p c := by
  rw [← Char.ofNat_toNat c]
  exact h _ hc

namespace Percent

variable {c : Char} {cs : List Char}

/-- Percent-decoding keeps ASCII characters that are neither percent signs nor hexadecimal digits. -/
theorem mem_decode (hc : c.toNat < 128) (hvalue : Digits.value? c = none) (hpercent : c ≠ '%') (h : c ∈ cs) :
    UInt8.ofNat c.toNat ∈ decode cs := by
  fun_induction decode cs with
  | case1 => cases h
  | case2 a b cs n hn ih =>
      have hdigits : Digits.isDigit 16 a ∧ Digits.isDigit 16 b := by
        rw [Digits.toNat?] at hn
        split at hn
        · rename_i hall
          simpa using hall
        · cases hn
      have hne : ∀ d, Digits.isDigit 16 d → c ≠ d := by
        rintro d hd rfl
        rw [Digits.isDigit, hvalue] at hd
        cases hd
      rcases List.mem_cons.mp h with h | h
      · exact absurd h hpercent
      rcases List.mem_cons.mp h with h | h
      · exact absurd h (hne a hdigits.1)
      rcases List.mem_cons.mp h with h | h
      · exact absurd h (hne b hdigits.2)
      · exact List.mem_cons_of_mem _ (ih h)
  | case3 a b cs hn ih =>
      rcases List.mem_cons.mp h with h | h
      · exact absurd h hpercent
      · exact List.mem_cons_of_mem _ (ih h)
  | case4 d cs _ ih =>
      rcases List.mem_cons.mp h with rfl | h
      · refine List.mem_append_left _ ?_
        rw [Bytes.ofText_eq_flatMap, String.toList_ofList, List.flatMap_singleton, Bytes.utf8EncodeChar_of_lt hc]
        exact List.mem_singleton_self _
      · exact List.mem_append_right _ (ih h)

end Percent

namespace Domain

variable {c : Char} {cs name : List Char}

theorem lt_of_isForbidden (h : isForbidden c) : c.toNat < 128 := by
  simp only [isForbidden, Bool.or_eq_true, decide_eq_true_eq, beq_iff_eq, List.contains_iff_mem] at h
  rcases h with (h | h) | h
  · omega
  · omega
  · have hall : ∀ c ∈ "%#/:<>?@[\\]^|".toList, c.toNat < 128 := List.all_iff_forall_prop.mp (by decide)
    exact hall c h

theorem value?_of_isForbidden (h : isForbidden c) : Digits.value? c = none := by
  have hall : ∀ n < 128, isForbidden (Char.ofNat n) → Digits.value? (Char.ofNat n) = none := by decide +kernel
  exact ascii_forall (p := fun c => isForbidden c → Digits.value? c = none) hall (lt_of_isForbidden h) h

/-- A name with a normal form holds nothing that no name may hold. -/
theorem not_isForbidden_of_normal? (h : normal? cs = some name) (hc : c ∈ cs) : ¬ isForbidden c := by
  intro hforbidden
  obtain ⟨mapped, hmapped, -⟩ := Option.bind_eq_some_iff.mp h
  obtain ⟨ds, hds⟩ := exists_of_mapM_eq_some hmapped hc
  rw [mapChar?] at hds
  simp only [lt_of_isForbidden hforbidden, hforbidden, if_true] at hds
  cases hds

end Domain

theorem Host.not_isForbidden_of_ofName {cs : List Char} {host : Host} {c : Char} (h : ofName cs = .ok host)
    (hc : c ∈ cs) (hpercent : c ≠ '%') : ¬ Domain.isForbidden c := by
  intro hforbidden
  have hbyte := Percent.mem_decode (Domain.lt_of_isForbidden hforbidden) (Domain.value?_of_isForbidden hforbidden)
    hpercent hc
  rw [ofName] at h
  cases hname : (Percent.decode cs).toText?.bind fun s => Domain.normal? s.toList with
  | none =>
      rw [hname] at h
      cases h
  | some name =>
      obtain ⟨s, hs, hname⟩ := Option.bind_eq_some_iff.mp hname
      rw [Bytes.toText?_eq_some_iff.mp hs] at hbyte
      have hmem := Bytes.mem_toList_of_mem_ofText (Domain.lt_of_isForbidden hforbidden) hbyte
      exact Domain.not_isForbidden_of_normal? hname hmem hforbidden

/-! ### Addresses -/

theorem Text.mem_join {separator c : Char} {pieces : List (List Char)} (h : c ∈ join separator pieces) :
    c = separator ∨ ∃ piece ∈ pieces, c ∈ piece := by
  fun_induction join separator pieces with
  | case1 => cases h
  | case2 piece => exact .inr ⟨piece, List.mem_singleton_self _, h⟩
  | case3 piece pieces _ ih =>
      rcases List.mem_append.mp h with h | h
      · exact .inr ⟨piece, List.mem_cons_self .., h⟩
      rcases List.mem_cons.mp h with h | h
      · exact .inl h
      · rcases ih h with h | ⟨piece', hpiece, h⟩
        · exact .inl h
        · exact .inr ⟨piece', List.mem_cons_of_mem _ hpiece, h⟩

namespace Address

variable {c : Char} {cs : List Char}

/-- The characters of an address of version 6. -/
def IsAddressChar (c : Char) : Prop := Digits.isDigit 16 c ∨ c = ':' ∨ c = '.'

theorem isDigit_of_strictByte? {n : Nat} (h : strictByte? cs = some n) (hc : c ∈ cs) : Digits.isDigit 10 c := by
  obtain ⟨m, hm, -⟩ := Option.bind_eq_some_iff.mp h
  rw [Digits.toNat?] at hm
  split at hm
  · rename_i hall
    exact List.all_eq_true.mp (Bool.and_eq_true_iff.mp hall).2 c hc
  · cases hm

theorem isDigit_sixteen_of_ten (h : Digits.isDigit 10 c) : Digits.isDigit 16 c := by
  rw [Digits.isDigit] at h ⊢
  cases hvalue : Digits.value? c with
  | none =>
      rw [hvalue] at h
      cases h
  | some n =>
      rw [hvalue] at h
      have hn : n < 10 := of_decide_eq_true h
      exact decide_eq_true (by omega)

theorem chars_of_embedded? {groups : List Nat} (h : embedded? cs = some groups) (hc : c ∈ cs) : IsAddressChar c := by
  obtain ⟨bytes, hbytes, -⟩ := Option.bind_eq_some_iff.mp h
  rw [← Text.join_split '.' cs] at hc
  rcases Text.mem_join hc with h | ⟨piece, hpiece, hc⟩
  · exact .inr (.inr h)
  · obtain ⟨n, hn⟩ := exists_of_mapM_eq_some hbytes hpiece
    exact .inl (isDigit_sixteen_of_ten (isDigit_of_strictByte? hn hc))

theorem group_append_drop (cs : List Char) :
    (cs.take 4).takeWhile (Digits.isDigit 16) ++ cs.drop ((cs.take 4).takeWhile (Digits.isDigit 16)).length = cs :=
  List.prefix_iff_eq_append.mp ((List.takeWhile_prefix _).trans (List.take_prefix 4 cs))

theorem chars_of_group (h : c ∈ (cs.take 4).takeWhile (Digits.isDigit 16)) : IsAddressChar c :=
  .inl (List.all_eq_true.mp List.all_takeWhile c h)

theorem chars_of_groups? {room : Nat} {gap : Option Nat} {groups : List Nat} {r : List Nat × Option Nat}
    (h : groups? room gap groups cs = some r) (hc : c ∈ cs) : IsAddressChar c := by
  fun_induction groups? room gap groups cs with
  | case1 => cases hc
  | case2 | case3 | case6 | case8 | case10 => cases h
  | case4 room gap groups rest _ ih =>
      rcases List.mem_cons.mp hc with rfl | hc
      · exact .inr (.inl rfl)
      · exact ih h hc
  | case5 room gap groups cs _ _ _ _ hdrop =>
      rw [← group_append_drop cs, hdrop, List.append_nil] at hc
      exact chars_of_group hc
  | case7 =>
      obtain ⟨tail, htail, -⟩ := Option.map_eq_some_iff.mp h
      exact chars_of_embedded? htail hc
  | case9 room gap groups cs _ _ _ _ rest hdrop _ ih =>
      rw [← group_append_drop cs, hdrop] at hc
      rcases List.mem_append.mp hc with hc | hc
      · exact chars_of_group hc
      rcases List.mem_cons.mp hc with rfl | hc
      · exact .inr (.inl rfl)
      · exact ih h hc

theorem length_of_embedded? {groups : List Nat} (h : embedded? cs = some groups) : groups.length = 2 := by
  obtain ⟨bytes, -, h⟩ := Option.bind_eq_some_iff.mp h
  split at h
  · cases h
    rfl
  · cases h

theorem length_of_groups? {room : Nat} {gap : Option Nat} {groups : List Nat} (hcolon : ':' ∉ cs)
    (h : groups? room none [] cs = some (groups, gap)) : gap = none ∧ groups.length ≤ 2 := by
  unfold groups? at h
  split at h
  · cases h
    exact ⟨rfl, by decide⟩
  · cases h
  · exact absurd (List.mem_cons_self ..) hcolon
  · dsimp only at h
    split at h
    · unfold groups? at h
      cases h
      exact ⟨rfl, Nat.le_succ 1⟩
    · split at h
      · cases h
      · obtain ⟨tail, htail, h⟩ := Option.map_eq_some_iff.mp h
        cases h
        exact ⟨rfl, Nat.le_of_eq (length_of_embedded? htail)⟩
    · rename_i hdrop
      exact absurd (List.mem_of_mem_drop (hdrop ▸ List.mem_cons_self ..)) hcolon
    · cases h

theorem chars_of_ipv6? {groups : List Nat} (h : ipv6? cs = some groups) (hc : c ∈ cs) : IsAddressChar c := by
  unfold ipv6? at h
  split at h
  · obtain ⟨r, hr, -⟩ := Option.bind_eq_some_iff.mp h
    rcases List.mem_cons.mp hc with rfl | hc
    · exact .inr (.inl rfl)
    rcases List.mem_cons.mp hc with rfl | hc
    · exact .inr (.inl rfl)
    · exact chars_of_groups? hr hc
  · cases h
  · cases h
  · cases h
  · obtain ⟨r, hr, -⟩ := Option.bind_eq_some_iff.mp h
    exact chars_of_groups? hr hc

theorem colon_of_ipv6? {groups : List Nat} (h : ipv6? cs = some groups) : ':' ∈ cs := by
  by_contra hcolon
  unfold ipv6? at h
  split at h
  · exact hcolon (List.mem_cons_self ..)
  · cases h
  · cases h
  · cases h
  · obtain ⟨⟨found, gap⟩, hr, h⟩ := Option.bind_eq_some_iff.mp h
    obtain ⟨rfl, hlength⟩ := length_of_groups? hcolon hr
    dsimp only at h
    rw [if_neg (by omega)] at h
    cases h

end Address

end StateHistory
