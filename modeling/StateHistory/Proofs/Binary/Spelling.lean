import StateHistory.Proofs.Binary.Numbers

/-! # Ways to write a value

A variable-length number may be padded, so a value has several binary forms. `Spelling` is the set of the
forms of one value, each with the numbers in it. Spellings are put together as the functions of
`StateHistory.Encoder` put bytes together, with `Spelling.number` where those write a number in its
shortest form; what they write is therefore one of the forms (`Spelling.Allows`), and the others differ
from it in that some number is longer (`Spelling.Shortens`). A reader that reads a value off each of its
forms, and off nothing else, `Accepts` them. -/

namespace StateHistory

variable {α β : Type}

/-- The forms of a value, and with each of them the variable-length numbers in it from left to right. -/
def Spelling := Bytes → (numbers : List Bytes) → Prop

namespace Spelling

/-- One form, without variable-length numbers. -/
def exactly (w : Bytes) : Spelling := fun w' numbers => w' = w ∧ numbers = []

/-- All forms of a variable-length number. -/
def number (n : Nat) : Spelling := fun w numbers =>
  (∃ v, Decoder.varuint32.run w = .ok v [] ∧ v.toNat = n) ∧ numbers = [w]

/-- A form of one value before a form of another one. -/
protected def append (S T : Spelling) : Spelling := fun w numbers =>
  ∃ w₁ numbers₁ w₂ numbers₂, S w₁ numbers₁ ∧ T w₂ numbers₂ ∧ w = w₁ ++ w₂ ∧ numbers = numbers₁ ++ numbers₂

instance : Append Spelling := ⟨Spelling.append⟩

/-- A byte string after its length. -/
def blob (bs : Bytes) : Spelling := number bs.length ++ exactly bs

/-- A value that may be absent, after a flag. -/
def option (S : α → Spelling) : Option α → Spelling
  | some v => exactly (Encoder.bool true) ++ S v
  | none => exactly (Encoder.bool false)

/-- Values in a row. -/
def each (S : α → Spelling) : List α → Spelling
  | [] => exactly []
  | v :: vs => S v ++ each S vs

/-- Values in a row after their count. -/
def vector (S : α → Spelling) (vs : List α) : Spelling := number vs.length ++ each S vs

variable {S T : Spelling} {w w' : Bytes} {numbers numbers' : List Bytes}

theorem append_intro (h : S w numbers) (h' : T w' numbers') : (S ++ T) (w ++ w') (numbers ++ numbers') :=
  ⟨w, numbers, w', numbers', h, h', rfl, rfl⟩

theorem append_assoc (S T U : Spelling) : S ++ T ++ U = S ++ (T ++ U) := by
  funext w numbers
  apply propext
  constructor
  · rintro ⟨_, _, _, _, ⟨_, _, _, _, hS, hT, rfl, rfl⟩, hU, rfl, rfl⟩
    rw [List.append_assoc, List.append_assoc]
    exact append_intro hS (append_intro hT hU)
  · rintro ⟨_, _, _, _, hS, ⟨_, _, _, _, hT, hU, rfl, rfl⟩, rfl, rfl⟩
    rw [← List.append_assoc, ← List.append_assoc]
    exact append_intro (append_intro hS hT) hU

theorem exactly_append (w w' : Bytes) : exactly (w ++ w') = exactly w ++ exactly w' := by
  funext w'' numbers
  apply propext
  constructor
  · rintro ⟨rfl, rfl⟩
    exact append_intro (S := exactly w) (T := exactly w') ⟨rfl, rfl⟩ ⟨rfl, rfl⟩
  · rintro ⟨_, _, _, _, ⟨rfl, rfl⟩, ⟨rfl, rfl⟩, rfl, rfl⟩
    exact ⟨rfl, rfl⟩

/-! ### What is written -/

/-- A byte string is among the forms. -/
def Allows (S : Spelling) (w : Bytes) : Prop := ∃ numbers, S w numbers

theorem allows_exactly (w : Bytes) : (exactly w).Allows w := ⟨[], rfl, rfl⟩

theorem allows_varuint32 (v : UInt32) : (number v.toNat).Allows (Encoder.varuint32 v) := by
  have hrun := Decoder.run_varuint32 v []
  rw [List.append_nil] at hrun
  exact ⟨_, ⟨v, hrun, rfl⟩, rfl⟩

theorem allows_number {n : Nat} (h : n < 0x100000000) : (number n).Allows (Encoder.count n) := by
  have hwritten := allows_varuint32 (UInt32.ofNat n)
  rwa [UInt32.toNat_ofNat_of_lt' h] at hwritten

theorem Allows.append (h : S.Allows w) (h' : T.Allows w') : (S ++ T).Allows (w ++ w') := by
  obtain ⟨_, hw⟩ := h
  obtain ⟨_, hw'⟩ := h'
  exact ⟨_, append_intro hw hw'⟩

theorem allows_append_iff : (S ++ T).Allows w ↔ ∃ w₁ w₂, S.Allows w₁ ∧ T.Allows w₂ ∧ w = w₁ ++ w₂ := by
  constructor
  · rintro ⟨_, w₁, _, w₂, _, h₁, h₂, hw, -⟩
    exact ⟨w₁, w₂, ⟨_, h₁⟩, ⟨_, h₂⟩, hw⟩
  · rintro ⟨w₁, w₂, h₁, h₂, rfl⟩
    exact h₁.append h₂

theorem allows_exactly_iff : (exactly w).Allows w' ↔ w' = w := by
  constructor
  · rintro ⟨_, hw, -⟩
    exact hw
  · rintro rfl
    exact allows_exactly w'

theorem allows_blob {bs : Bytes} (h : bs.length < 0x100000000) : (blob bs).Allows (Encoder.blob bs) :=
  (allows_number h).append (allows_exactly bs)

theorem allows_option {S : α → Spelling} {write : α → Bytes} {o : Option α}
    (h : ∀ v ∈ o, (S v).Allows (write v)) : (option S o).Allows (Encoder.option write o) := by
  cases o with
  | none => exact allows_exactly _
  | some v => exact (allows_exactly _).append (h v rfl)

theorem allows_each {S : α → Spelling} {write : α → Bytes} {vs : List α}
    (h : ∀ v ∈ vs, (S v).Allows (write v)) : (each S vs).Allows (vs.flatMap write) := by
  induction vs with
  | nil => exact allows_exactly []
  | cons v vs ih =>
      obtain ⟨hfirst, hrest⟩ := List.forall_mem_cons.mp h
      rw [List.flatMap_cons]
      exact hfirst.append (ih hrest)

theorem allows_each_iff {S : α → Spelling} {vs : List α} : (each S vs).Allows w ↔
    ∃ parts : List (Bytes × α), (∀ p ∈ parts, (S p.2).Allows p.1) ∧ w = (parts.map Prod.fst).flatten ∧
      vs = parts.map Prod.snd := by
  induction vs generalizing w with
  | nil =>
      rw [each, allows_exactly_iff]
      constructor
      · rintro rfl
        exact ⟨[], by simp⟩
      · rintro ⟨parts, -, rfl, hnil⟩
        rw [List.map_eq_nil_iff.mp hnil.symm]
        rfl
  | cons v vs ih =>
      rw [each, allows_append_iff]
      constructor
      · rintro ⟨w₁, w₂, hw₁, hw₂, rfl⟩
        obtain ⟨parts, hparts, rfl, rfl⟩ := ih.mp hw₂
        exact ⟨(w₁, v) :: parts, List.forall_mem_cons.mpr ⟨hw₁, hparts⟩, rfl, rfl⟩
      · rintro ⟨_ | ⟨⟨w₁, v'⟩, parts⟩, hparts, rfl, hvs⟩
        · cases hvs
        · obtain ⟨rfl, rfl⟩ := List.cons.inj hvs
          obtain ⟨hfirst, hrest⟩ := List.forall_mem_cons.mp hparts
          exact ⟨w₁, _, hfirst, ih.mpr ⟨parts, hrest, rfl, rfl⟩, rfl⟩

theorem allows_vector {S : α → Spelling} {write : α → Bytes} {vs : List α} (hcount : vs.length < 0x100000000)
    (h : ∀ v ∈ vs, (S v).Allows (write v)) : (vector S vs).Allows (Encoder.vector write vs) :=
  (allows_number hcount).append (allows_each h)

/-! ### What is shortest -/

/-- If there are forms at all, `w` is one of them, none is shorter, and the numbers of no other one are all
in their shortest form. -/
structure Shortens (S : Spelling) (w : Bytes) : Prop where
  allows : ∀ {w' numbers}, S w' numbers → S.Allows w
  length_le : ∀ {w' numbers}, S w' numbers → w.length ≤ w'.length
  eq_iff : ∀ {w' numbers}, S w' numbers → (w = w' ↔ ∀ n ∈ numbers, Encoder.Shortest n)

/-- A form whose numbers are all in their shortest form. -/
def Compact (S : Spelling) (w : Bytes) : Prop := ∃ numbers, S w numbers ∧ ∀ n ∈ numbers, Encoder.Shortest n

theorem Compact.allows (h : S.Compact w) : S.Allows w := h.imp fun _ hw => hw.1

/-- There is no more than one such form of a value. -/
theorem Shortens.eq_of_compact (h : S.Shortens w) (hw' : S.Compact w') : w = w' := by
  obtain ⟨_, hnumbers, hshortest⟩ := hw'
  exact (h.eq_iff hnumbers).mpr hshortest

theorem Shortens.compact (h : S.Shortens w) (hw' : S.Allows w') : S.Compact w := by
  obtain ⟨_, hw'⟩ := hw'
  obtain ⟨numbers, hw⟩ := h.allows hw'
  exact ⟨numbers, hw, (h.eq_iff hw).mp rfl⟩

theorem shortens_exactly (w : Bytes) : (exactly w).Shortens w where
  allows := fun _ => allows_exactly w
  length_le := by
    rintro _ _ ⟨rfl, -⟩
    exact Nat.le_refl _
  eq_iff := by
    rintro _ _ ⟨rfl, rfl⟩
    simp

theorem shortens_number (n : Nat) : (number n).Shortens (Encoder.count n) where
  allows := by
    rintro _ _ ⟨⟨v, -, rfl⟩, -⟩
    exact allows_number v.toNat_lt
  length_le := by
    rintro w _ ⟨⟨v, hv, rfl⟩, -⟩
    rw [Encoder.count, UInt32.ofNat_toNat]
    rcases Decoder.varuint32_eq_or_length_lt hv with rfl | hlonger
    · exact Nat.le_refl _
    · exact Nat.le_of_lt hlonger
  eq_iff := by
    rintro w _ ⟨⟨v, hv, rfl⟩, rfl⟩
    rw [Encoder.count, UInt32.ofNat_toNat, List.forall_mem_singleton]
    exact (Encoder.shortest_iff hv).symm

theorem Shortens.append (h : S.Shortens w) (h' : T.Shortens w') : (S ++ T).Shortens (w ++ w') where
  allows := by
    rintro _ _ ⟨_, _, _, _, h₁, h₂, -, -⟩
    exact (h.allows h₁).append (h'.allows h₂)
  length_le := by
    rintro _ _ ⟨w₁, _, w₂, _, h₁, h₂, rfl, -⟩
    rw [List.length_append, List.length_append]
    exact Nat.add_le_add (h.length_le h₁) (h'.length_le h₂)
  eq_iff := by
    rintro _ _ ⟨w₁, _, w₂, _, h₁, h₂, rfl, rfl⟩
    have hsplit : w ++ w' = w₁ ++ w₂ ↔ w = w₁ ∧ w' = w₂ := by
      have hle := h.length_le h₁
      have hle' := h'.length_le h₂
      refine ⟨fun hsame => ?_, fun ⟨hw, hw'⟩ => by rw [hw, hw']⟩
      have hlength := congrArg List.length hsame
      rw [List.length_append, List.length_append] at hlength
      exact List.append_inj hsame (by omega)
    rw [hsplit, h.eq_iff h₁, h'.eq_iff h₂, List.forall_mem_append]

theorem shortens_blob (bs : Bytes) : (blob bs).Shortens (Encoder.blob bs) :=
  (shortens_number bs.length).append (shortens_exactly bs)

theorem shortens_option {S : α → Spelling} {write : α → Bytes} (h : ∀ v, (S v).Shortens (write v))
    (o : Option α) : (option S o).Shortens (Encoder.option write o) := by
  cases o with
  | none => exact shortens_exactly _
  | some v => exact (shortens_exactly _).append (h v)

theorem shortens_each {S : α → Spelling} {write : α → Bytes} (h : ∀ v, (S v).Shortens (write v))
    (vs : List α) : (each S vs).Shortens (vs.flatMap write) := by
  induction vs with
  | nil => exact shortens_exactly []
  | cons v vs ih =>
      rw [List.flatMap_cons]
      exact (h v).append ih

theorem shortens_vector {S : α → Spelling} {write : α → Bytes} (h : ∀ v, (S v).Shortens (write v))
    (vs : List α) : (vector S vs).Shortens (Encoder.vector write vs) :=
  (shortens_number vs.length).append (shortens_each h vs)

end Spelling

/-! ### What is read -/

namespace Decoder

open Spelling

/-- A reader takes for a value each of its forms, and nothing else. -/
def Accepts (d : Decoder α) (S : α → Spelling) : Prop := d.Recognizes fun w v => (S v).Allows w

variable {d : Decoder α} {S : α → Spelling}

theorem Recognizes.accepts {write : α → Bytes} (h : d.Recognizes fun w v => w = write v) :
    d.Accepts fun v => exactly (write v) :=
  h.of_iff fun _ _ => allows_exactly_iff.symm

/-! Records are read field by field. `P` stands for what the fields before say of the record. -/

theorem Accepts.last {P : β → Prop} {field : β → α} {record : α → β} (hd : d.Accepts S)
    (h : ∀ r v, P r ∧ field r = v ↔ r = record v) :
    (do return record (← d) : Decoder β).Recognizes fun w r => P r ∧ (S (field r)).Allows w := by
  refine (Recognizes.map hd record).of_iff fun w r => ?_
  simp only [← h]
  constructor
  · rintro ⟨_, hw, hr, rfl⟩
    exact ⟨hr, hw⟩
  · rintro ⟨hr, hw⟩
    exact ⟨_, hw, hr, rfl⟩

theorem Accepts.field {P : β → Prop} {field : β → α} {k : α → Decoder β} {T : β → Spelling} (hd : d.Accepts S)
    (hk : ∀ v, (k v).Recognizes fun w r => (P r ∧ field r = v) ∧ (T r).Allows w) :
    (d >>= k).Recognizes fun w r => P r ∧ (S (field r) ++ T r).Allows w := by
  refine (Recognizes.bind hd hk).of_iff fun w r => ?_
  rw [allows_append_iff]
  constructor
  · rintro ⟨_, w₁, w₂, rfl, hw₁, ⟨hr, rfl⟩, hw₂⟩
    exact ⟨hr, w₁, w₂, hw₁, hw₂, rfl⟩
  · rintro ⟨hr, w₁, w₂, hw₁, hw₂, rfl⟩
    exact ⟨_, w₁, w₂, rfl, hw₁, ⟨hr, rfl⟩, hw₂⟩

/-- All fields of a record. -/
theorem accepts_record (h : d.Recognizes fun w r => True ∧ (S r).Allows w) : d.Accepts S :=
  h.of_iff fun _ _ => iff_of_eq (true_and _)

theorem accepts_number : varuint32.Accepts fun v => number v.toNat := by
  refine plain_varuint32.recognizes.of_iff fun w v => ⟨fun hrun => ⟨[w], ⟨v, hrun, rfl⟩, rfl⟩, ?_⟩
  rintro ⟨_, ⟨v', hrun, hsame⟩, -⟩
  rwa [← UInt32.toNat_inj.mp hsame]

theorem recognizes_bytes (n : Nat) : (bytes n).Recognizes fun w v => w = v ∧ v.length = n := by
  refine ((recognizes_exact n).map _).of_iff fun w v => ⟨?_, ?_⟩
  · rintro ⟨block, rfl, rfl⟩
    exact ⟨rfl, block.length_eq⟩
  · rintro ⟨rfl, hlength⟩
    exact ⟨⟨w, hlength⟩, rfl, rfl⟩

theorem accepts_blob : blob.Accepts Spelling.blob := by
  refine (accepts_number.bind fun n => recognizes_bytes n.toNat).of_iff fun w v => ?_
  rw [Spelling.blob, allows_append_iff]
  constructor
  · rintro ⟨n, w₁, w₂, rfl, hn, rfl, hlength⟩
    rw [hlength]
    exact ⟨w₁, w₂, hn, allows_exactly w₂, rfl⟩
  · rintro ⟨w₁, w₂, ⟨_, ⟨n, hn, hlength⟩, -⟩, hw₂, rfl⟩
    exact ⟨n, w₁, w₂, rfl, ⟨_, ⟨n, hn, rfl⟩, rfl⟩, allows_exactly_iff.mp hw₂, hlength.symm⟩

theorem accepts_string : string.Accepts fun s => Spelling.blob (Bytes.ofText s) := by
  refine (accepts_blob.bind (H := fun bs w s => w = [] ∧ bs = Bytes.ofText s) fun bs => ?_).of_iff fun w s => ?_
  · split
    · rename_i s hs
      refine (Recognizes.pure s).of_iff fun w s' => ?_
      rw [← Bytes.toText?_eq_some_iff, hs, Option.some.injEq, eq_comm (a := s)]
    · rename_i hnone
      refine (Recognizes.throw _).of_iff fun w s => ?_
      simp [← Bytes.toText?_eq_some_iff, hnone]
  · constructor
    · rintro ⟨bs, w₁, _, rfl, hw₁, rfl, rfl⟩
      rwa [List.append_nil]
    · intro hw
      exact ⟨_, w, [], (List.append_nil w).symm, hw, rfl, rfl⟩

theorem Accepts.option (h : d.Accepts S) : (option d).Accepts (Spelling.option S) := by
  refine ((h.map some).flagged none).of_iff fun w o => ?_
  cases o with
  | none =>
      rw [Spelling.option, allows_exactly_iff]
      simp [Encoder.bool]
  | some v =>
      rw [Spelling.option, allows_append_iff]
      simp [Encoder.bool, allows_exactly_iff, and_comm]

theorem Accepts.vector (h : d.Accepts S) : (vector d).Accepts (Spelling.vector S) := by
  refine (Recognizes.vector h).of_iff fun w vs => ?_
  rw [Spelling.vector, allows_append_iff]
  simp only [allows_each_iff]
  constructor
  · rintro ⟨count, n, parts, hcount, hlength, hparts, rfl, rfl⟩
    refine ⟨count, _, ⟨_, ⟨n, hcount, ?_⟩, rfl⟩, ⟨parts, hparts, rfl, rfl⟩, rfl⟩
    rw [List.length_map, hlength]
  · rintro ⟨count, _, ⟨_, ⟨n, hcount, hlength⟩, -⟩, ⟨parts, hparts, rfl, rfl⟩, rfl⟩
    rw [List.length_map] at hlength
    exact ⟨count, n, parts, hcount, hlength.symm, hparts, rfl, rfl⟩

end Decoder

end StateHistory
