import StateHistory.Proofs.Binary.Reading

/-! # Readers and grammars

A grammar says which byte strings encode which values. A reader recognizes a grammar if it reads a value
exactly off an encoding of it, whatever follows (`Decoder.Recognizes`). Readers that do one thing after
the other recognize what is put together of one encoding after the other, and a grammar that is recognized
is unambiguous (`Decoder.Recognizes.unambiguous`). -/

namespace StateHistory.Decoder

variable {α β : Type}

/-- A reader reads a first part of its input as a value exactly if that part encodes the value. -/
structure Recognizes (d : Decoder α) (G : Bytes → α → Prop) : Prop where
  sound : ∀ {input v rest}, d.run input = .ok v rest → ∃ w, input = w ++ rest ∧ G w v
  complete : ∀ {w v}, G w v → ∀ s, d.run (w ++ s) = .ok v s

variable {d : Decoder α} {G : Bytes → α → Prop} {f : α → Decoder β} {H : α → Bytes → β → Prop}

theorem atEnd_bind (d : Decoder α) : (atEnd >>= fun _ => d) = d := rfl

namespace Recognizes

theorem run_iff (h : d.Recognizes G) {w s : Bytes} {v : α} : d.run (w ++ s) = .ok v s ↔ G w v := by
  refine ⟨fun hrun => ?_, fun hw => h.complete hw s⟩
  obtain ⟨w', hsplit, hw'⟩ := h.sound hrun
  rwa [List.append_cancel_right hsplit]

/-- Of one input only one first part is an encoding, and of only one value. -/
theorem unambiguous (h : d.Recognizes G) {w w' s s' : Bytes} {v v' : α} (hw : G w v) (hw' : G w' v')
    (hsame : w ++ s = w' ++ s') : w = w' ∧ v = v' := by
  have hrun := h.complete hw s
  rw [hsame, h.complete hw' s'] at hrun
  obtain ⟨rfl, rfl⟩ := EStateM.Result.ok.inj hrun
  exact ⟨List.append_cancel_right hsame, rfl⟩

theorem of_iff {G' : Bytes → α → Prop} (h : d.Recognizes G) (hG : ∀ w v, G w v ↔ G' w v) :
    d.Recognizes G' where
  sound := by
    intro input v rest hrun
    obtain ⟨w, hsplit, hw⟩ := h.sound hrun
    exact ⟨w, hsplit, (hG w v).mp hw⟩
  complete := fun hw => h.complete ((hG _ _).mpr hw)

theorem pure (v : α) : (Pure.pure v : Decoder α).Recognizes fun w v' => w = [] ∧ v' = v where
  sound := by
    rintro input v rest ⟨⟩
    exact ⟨[], rfl, rfl, rfl⟩
  complete := by
    rintro w v' ⟨rfl, rfl⟩ s
    rfl

theorem throw (e : ProtocolError) : (MonadExcept.throw e : Decoder α).Recognizes fun _ _ => False where
  sound := by
    rintro input v rest ⟨⟩
  complete := False.elim

theorem bind (hd : d.Recognizes G) (hf : ∀ v, (f v).Recognizes (H v)) :
    (d >>= f).Recognizes fun w v' => ∃ v w₁ w₂, w = w₁ ++ w₂ ∧ G w₁ v ∧ H v w₂ v' where
  sound := by
    intro input v' rest hrun
    rw [EStateM.run_bind] at hrun
    split at hrun
    · rename_i v middle hfirst
      obtain ⟨w₁, rfl, hw₁⟩ := hd.sound hfirst
      obtain ⟨w₂, rfl, hw₂⟩ := (hf v).sound hrun
      exact ⟨w₁ ++ w₂, (List.append_assoc ..).symm, v, w₁, w₂, rfl, hw₁, hw₂⟩
    · cases hrun
  complete := by
    rintro _ v' ⟨v, w₁, w₂, rfl, hw₁, hw₂⟩ s
    rw [EStateM.run_bind, List.append_assoc, hd.complete hw₁]
    exact (hf v).complete hw₂ s

theorem map (hd : d.Recognizes G) (f : α → β) :
    (do return f (← d) : Decoder β).Recognizes fun w v' => ∃ v, G w v ∧ v' = f v := by
  refine (hd.bind fun v => pure (f v)).of_iff fun w v' => ?_
  constructor
  · rintro ⟨v, w, -, rfl, hw, rfl, rfl⟩
    rw [List.append_nil]
    exact ⟨v, hw, rfl⟩
  · rintro ⟨v, hw, rfl⟩
    exact ⟨v, w, [], (List.append_nil w).symm, hw, rfl, rfl⟩

end Recognizes

/-- A reader that looks at nothing but what it reads recognizes what it reads to the end. -/
theorem Plain.recognizes (hd : d.Plain) : d.Recognizes fun w v => d.run w = .ok v [] where
  sound := by
    intro input v rest hrun
    obtain ⟨w, hsplit, hreads⟩ := hd.isLocal _ _ _ hrun
    have hend := hreads.run_append []
    rw [List.append_nil] at hend
    exact ⟨w, hsplit, hend⟩
  complete := fun hrun => (hd.isLocal.reads hrun).run_append

theorem recognizes_uint8 : uint8.Recognizes fun w b => w = [b] where
  sound := by
    intro input b rest hrun
    cases input with
    | nil => cases hrun
    | cons b' input =>
        obtain ⟨rfl, rfl⟩ := EStateM.Result.ok.inj hrun
        exact ⟨[b'], rfl, rfl⟩
  complete := by
    rintro w b rfl s
    rfl

theorem recognizes_bool : bool.Recognizes fun w b => w = [if b then 1 else 0] := by
  refine (recognizes_uint8.bind (H := fun byte w b => w = [] ∧ byte = if b then 1 else 0) fun byte => ?_).of_iff
    fun w b => ?_
  · split
    · rename_i hzero
      exact (Recognizes.pure false).of_iff fun w b => by cases b <;> simp [hzero]
    · split
      · rename_i hone
        exact (Recognizes.pure true).of_iff fun w b => by cases b <;> simp [hone]
      · rename_i hzero hone
        exact (Recognizes.throw _).of_iff fun w b => by cases b <;> simp [hzero, hone]
  · constructor
    · rintro ⟨_, _, _, rfl, rfl, rfl, rfl⟩
      rfl
    · rintro rfl
      exact ⟨_, _, [], rfl, rfl, rfl, rfl⟩

theorem Recognizes.flagged (hd : d.Recognizes G) (absent : α) :
    (do if ← bool then d else return absent : Decoder α).Recognizes fun w v =>
      w = [0] ∧ v = absent ∨ ∃ w', w = 1 :: w' ∧ G w' v := by
  refine (recognizes_bool.bind (H := fun b w v => if b then G w v else w = [] ∧ v = absent) fun b => ?_).of_iff
    fun w v => ?_
  · cases b with
    | false => exact Recognizes.pure absent
    | true => exact hd
  · constructor
    · rintro ⟨_ | _, _, w', rfl, rfl, hw'⟩
      · obtain ⟨rfl, rfl⟩ := hw'
        exact .inl ⟨rfl, rfl⟩
      · exact .inr ⟨w', rfl, hw'⟩
    · rintro (⟨rfl, rfl⟩ | ⟨w', rfl, hw'⟩)
      · exact ⟨false, [0], [], rfl, rfl, rfl, rfl⟩
      · exact ⟨true, [1], w', rfl, rfl, hw'⟩

theorem Recognizes.timesOnto (hd : d.Recognizes G) (n : Nat) (read : List α) :
    (timesOnto d n read).Recognizes fun w vs => ∃ parts : List (Bytes × α),
      parts.length = n ∧ (∀ p ∈ parts, G p.1 p.2) ∧ w = (parts.map Prod.fst).flatten ∧
        vs = read.reverse ++ parts.map Prod.snd := by
  induction n generalizing read with
  | zero =>
      refine (Recognizes.pure read.reverse).of_iff fun w vs => ?_
      simp only [List.length_eq_zero_iff, exists_eq_left]
      simp
  | succ n ih =>
      refine (hd.bind fun v => ih (v :: read)).of_iff fun w vs => ?_
      constructor
      · rintro ⟨v, w₁, _, rfl, hw₁, parts, hlength, hparts, rfl, rfl⟩
        exact ⟨(w₁, v) :: parts, by simp [hlength], List.forall_mem_cons.mpr ⟨hw₁, hparts⟩, by simp, by simp⟩
      · rintro ⟨_ | ⟨⟨w₁, v⟩, parts⟩, hlength, hparts, rfl, rfl⟩
        · cases hlength
        · obtain ⟨hfirst, hrest⟩ := List.forall_mem_cons.mp hparts
          exact ⟨v, w₁, _, by simp, hfirst, parts, Nat.succ.inj hlength, hrest, rfl, by simp⟩

theorem Recognizes.vector (hd : d.Recognizes G) :
    (vector d).Recognizes fun w vs => ∃ count n, ∃ parts : List (Bytes × α),
      varuint32.run count = .ok n [] ∧ parts.length = n.toNat ∧ (∀ p ∈ parts, G p.1 p.2) ∧
        w = count ++ (parts.map Prod.fst).flatten ∧ vs = parts.map Prod.snd := by
  refine (plain_varuint32.recognizes.bind fun n => hd.timesOnto n.toNat []).of_iff fun w vs => ?_
  constructor
  · rintro ⟨n, count, _, rfl, hcount, parts, hlength, hparts, rfl, rfl⟩
    exact ⟨count, n, parts, hcount, hlength, hparts, rfl, rfl⟩
  · rintro ⟨count, n, parts, hcount, hlength, hparts, rfl, rfl⟩
    exact ⟨n, count, _, rfl, hcount, parts, hlength, hparts, rfl, rfl⟩

end StateHistory.Decoder
