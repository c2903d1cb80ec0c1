import StateHistory.Proofs.Binary.Reading

/-! # Positions

The state of a reader is what is left of its input. Here readers run on the whole input and a position in it
instead (`Decoder.Run`), where more can go wrong: the number of bytes that are left is a difference, which must not
be negative, and the bytes that are taken are a slice, which must not be out of range. A fixed-size read checks the
one before the other (`Cursor.take?`), so that neither happens from a position in the data (`Cursor.take?_cases`).

A run lists all fixed-size reads that are made on the way. Each of them takes exactly the bytes up to where the
next one starts, or takes none (`Access.Sound`). So a run stays in the data (`Run.within`), comes to what the
reader comes to on what is left (`Run.outcome`), and reports that bytes are missing only where they are
(`Run.truncated`). There is a run for everything that is put together of fixed-size reads and of looking for the
end (`compositional_runnable`). -/

namespace StateHistory

/-- The bytes between two positions, unless they are in the wrong order or behind the end. -/
def Bytes.slice? (bs : Bytes) (start stop : Nat) : Option Bytes :=
  if start ≤ stop ∧ stop ≤ bs.length then some ((bs.drop start).take (stop - start)) else none

theorem Bytes.slice?_of_le {bs : Bytes} {start n : Nat} (h : start + n ≤ bs.length) :
    bs.slice? start (start + n) = some ((bs.drop start).take n) := by
  rw [slice?, if_pos ⟨Nat.le_add_right _ _, h⟩, Nat.add_sub_cancel_left]

/-- A byte string and a position in it. -/
structure Cursor where
  data : Bytes
  position : Nat

namespace Cursor

/-- The number of bytes behind the position, unless the position is behind the end. -/
def remaining? (k : Cursor) : Option Nat :=
  if k.position ≤ k.data.length then some (k.data.length - k.position) else none

/-- The next `n` bytes, and the cursor behind them. If there are fewer, that is the answer, and the cursor stays. -/
def take? (k : Cursor) (n : Nat) : Option (Except ProtocolError Bytes × Cursor) := do
  let remaining ← k.remaining?
  if remaining < n then return (.error (.truncated n remaining), k)
  else
    let bytes ← k.data.slice? k.position (k.position + n)
    return (.ok bytes, { k with position := k.position + n })

theorem remaining?_of_le {data : Bytes} {p : Nat} (h : p ≤ data.length) :
    remaining? ⟨data, p⟩ = some (data.length - p) := if_pos h

theorem le_of_remaining? {data : Bytes} {p remaining : Nat} (h : remaining? ⟨data, p⟩ = some remaining) :
    p ≤ data.length ∧ remaining = data.length - p := by
  rw [remaining?] at h
  split at h
  · exact ⟨‹_›, (Option.some.inj h).symm⟩
  · cases h

/-- From a position in the data, a fixed-size read does one of two things. -/
theorem take?_cases {data : Bytes} {p : Nat} (h : p ≤ data.length) (n : Nat) :
    data.length - p < n ∧ take? ⟨data, p⟩ n = some (.error (.truncated n (data.length - p)), ⟨data, p⟩) ∨
      p + n ≤ data.length ∧ take? ⟨data, p⟩ n = some (.ok ((data.drop p).take n), ⟨data, p + n⟩) := by
  rw [take?, remaining?_of_le h]
  rcases Nat.lt_or_ge (data.length - p) n with hshort | hlong
  · exact .inl ⟨hshort, if_pos hshort⟩
  · have hfits : p + n ≤ data.length := by omega
    refine .inr ⟨hfits, ?_⟩
    dsimp only [Option.bind_eq_bind, Option.bind_some]
    rw [if_neg (Nat.not_lt.mpr hlong), Bytes.slice?_of_le hfits]
    rfl

end Cursor

/-! ### Fixed-size reads -/

/-- A fixed-size read: how many bytes were asked for, the position before, the answer, and the position after. -/
structure Access where
  size : Nat
  start : Nat
  answer : Except ProtocolError Bytes
  stop : Nat

/-- The bytes of a fixed-size read are those between its two positions, or it has found too few bytes and has not
moved. -/
inductive Access.Sound (data : Bytes) : Access → Prop
  | taken {start size : Nat} {bytes : Bytes} : start + size ≤ data.length →
      data.slice? start (start + size) = some bytes → Access.Sound data ⟨size, start, .ok bytes, start + size⟩
  | short {start size : Nat} : start ≤ data.length → data.length - start < size →
      Access.Sound data ⟨size, start, .error (.truncated size (data.length - start)), start⟩

/-- Fixed-size reads from one position to another, where each starts where the one before has stopped. -/
inductive Access.Linked : Nat → List Access → Nat → Prop
  | nil (p : Nat) : Linked p [] p
  | cons {a : Access} {accesses : List Access} {q : Nat} :
      Linked a.stop accesses q → Linked a.start (a :: accesses) q

namespace Access

variable {data : Bytes} {a : Access} {accesses accesses' : List Access} {p q r : Nat}

theorem sound_of_take? {n : Nat} {answer : Except ProtocolError Bytes}
    (h : Cursor.take? ⟨data, p⟩ n = some (answer, ⟨data, q⟩)) : Sound data ⟨n, p, answer, q⟩ := by
  have hp : p ≤ data.length := by
    by_contra hp
    rw [Cursor.take?, Cursor.remaining?, if_neg hp] at h
    cases h
  rcases Cursor.take?_cases hp n with ⟨hshort, htake⟩ | ⟨hfits, htake⟩
  · obtain ⟨rfl, hq⟩ := Prod.mk.inj (Option.some.inj (h.symm.trans htake))
    obtain rfl := (Cursor.mk.inj hq).2
    exact .short hp hshort
  · obtain ⟨rfl, hq⟩ := Prod.mk.inj (Option.some.inj (h.symm.trans htake))
    obtain rfl := (Cursor.mk.inj hq).2
    exact .taken hfits (Bytes.slice?_of_le hfits)

theorem Sound.start_le (h : a.Sound data) : a.start ≤ a.stop := by
  cases h with
  | taken _ _ => exact Nat.le_add_right _ _
  | short _ _ => exact Nat.le_refl _

theorem Sound.stop_le (h : a.Sound data) : a.stop ≤ data.length := by
  cases h with
  | taken hfits _ => exact hfits
  | short hp _ => exact hp

theorem Sound.drop_eq {size : Nat} {bytes : Bytes} (h : Sound data ⟨size, p, .ok bytes, q⟩) :
    data.drop p = bytes ++ data.drop q := by
  cases h with
  | taken hfits hslice =>
      obtain rfl := Option.some.inj ((Bytes.slice?_of_le hfits).symm.trans hslice)
      rw [← List.drop_drop, List.take_append_drop]

theorem Sound.eq_of_error {size : Nat} {e : ProtocolError} (h : Sound data ⟨size, p, .error e, q⟩) :
    p = q ∧ e = .truncated size (data.length - q) ∧ data.length - q < size := by
  cases h with
  | short _ hshort => exact ⟨rfl, rfl, hshort⟩

theorem Linked.append (h : Linked p accesses q) (h' : Linked q accesses' r) :
    Linked p (accesses ++ accesses') r := by
  induction h with
  | nil p => exact h'
  | cons _ ih => exact .cons (ih h')

theorem linked_singleton (a : Access) : Linked a.start [a] a.stop := .cons (.nil a.stop)

theorem Linked.within (h : Linked p accesses q) (hsound : ∀ a ∈ accesses, a.Sound data) (hp : p ≤ data.length) :
    p ≤ q ∧ q ≤ data.length := by
  induction h with
  | nil p => exact ⟨Nat.le_refl p, hp⟩
  | cons _ ih =>
      obtain ⟨hfirst, hrest⟩ := List.forall_mem_cons.mp hsound
      obtain ⟨hle, hq⟩ := ih hrest hfirst.stop_le
      exact ⟨Nat.le_trans hfirst.start_le hle, hq⟩

end Access

/-! ### Runs -/

namespace Decoder

variable {α β : Type} {d : Decoder α} {f : α → Decoder β} {input rest : Bytes}

theorem outcome_bind_of_ok {v : α} (h : d.outcome input = (.ok v, rest)) :
    (d >>= f).outcome input = (f v).outcome rest := by
  rw [outcome, EStateM.run_bind, outcome_eq_ok_iff.mp h]
  rfl

theorem outcome_bind_of_error {e : ProtocolError} (h : d.outcome input = (.error e, rest)) :
    (d >>= f).outcome input = (.error e, rest) := by
  rw [outcome_eq_error_iff, EStateM.run_bind, outcome_eq_error_iff.mp h]

/-- A reader runs on the data from one position to another: it makes the listed fixed-size reads, and the last thing
is its result. -/
inductive Run (data : Bytes) :
    {α : Type} → Decoder α → Nat → List Access → Except ProtocolError α → Nat → Prop
  | pure {α : Type} (v : α) (p : Nat) : Run data (Pure.pure v : Decoder α) p [] (.ok v) p
  | throw {α : Type} {e : ProtocolError} (p : Nat) : (∀ needed remaining, e ≠ .truncated needed remaining) →
      Run data (MonadExcept.throw e : Decoder α) p [] (.error e) p
  | remaining {p left : Nat} : Cursor.remaining? ⟨data, p⟩ = some left → Run data remaining p [] (.ok left) p
  | exact {n p q : Nat} {w : Bytes.Block n} : Cursor.take? ⟨data, p⟩ n = some (.ok w.bytes, ⟨data, q⟩) →
      Run data (exact n) p [⟨n, p, .ok w.bytes, q⟩] (.ok w) q
  | short {n p q : Nat} {e : ProtocolError} : Cursor.take? ⟨data, p⟩ n = some (.error e, ⟨data, q⟩) →
      Run data (Decoder.exact n) p [⟨n, p, .error e, q⟩] (.error e) q
  | next {α β : Type} {d : Decoder α} {f : α → Decoder β} {v : α} {p q r : Nat} {before after : List Access}
      {result : Except ProtocolError β} : Run data d p before (.ok v) q → Run data (f v) q after result r →
      Run data (d >>= f) p (before ++ after) result r
  | stop {α β : Type} {d : Decoder α} {f : α → Decoder β} {e : ProtocolError} {p q : Nat}
      {accesses : List Access} : Run data d p accesses (.error e) q →
      Run data (d >>= f) p accesses (.error e) q

namespace Run

variable {data : Bytes} {d : Decoder α} {p q : Nat} {accesses : List Access} {result : Except ProtocolError α}

theorem linked (h : d.Run data p accesses result q) : Access.Linked p accesses q := by
  induction h with
  | pure _ p => exact .nil p
  | throw p _ => exact .nil p
  | remaining _ => exact .nil _
  | exact _ => exact Access.linked_singleton ⟨_, _, _, _⟩
  | short _ => exact Access.linked_singleton ⟨_, _, _, _⟩
  | next _ _ ih ih' => exact ih.append ih'
  | stop _ ih => exact ih

theorem sound (h : d.Run data p accesses result q) : ∀ a ∈ accesses, a.Sound data := by
  induction h with
  | pure _ _ => exact List.forall_mem_nil _
  | throw _ _ => exact List.forall_mem_nil _
  | remaining _ => exact List.forall_mem_nil _
  | exact htake => exact List.forall_mem_singleton.mpr (Access.sound_of_take? htake)
  | short htake => exact List.forall_mem_singleton.mpr (Access.sound_of_take? htake)
  | next _ _ ih ih' => exact List.forall_mem_append.mpr ⟨ih, ih'⟩
  | stop _ ih => exact ih

/-- A run that starts in the data goes forward and stays there. -/
theorem within (h : d.Run data p accesses result q) (hp : p ≤ data.length) : p ≤ q ∧ q ≤ data.length :=
  h.linked.within h.sound hp

/-- A run comes to what the reader comes to on what is left. -/
theorem outcome (h : d.Run data p accesses result q) : d.outcome (data.drop p) = (result, data.drop q) := by
  induction h with
  | pure _ _ => rfl
  | throw _ _ => rfl
  | remaining hleft =>
      obtain ⟨-, rfl⟩ := Cursor.le_of_remaining? hleft
      rw [← List.length_drop]
      rfl
  | @exact n p q w htake =>
      rw [(Access.sound_of_take? htake).drop_eq]
      exact outcome_eq_ok_iff.mpr (exact_append w _)
  | @short n p q e htake =>
      obtain ⟨rfl, rfl, hshort⟩ := (Access.sound_of_take? htake).eq_of_error
      rw [← List.length_drop] at hshort ⊢
      exact outcome_eq_error_iff.mpr (exact_of_short hshort)
  | next _ _ ih ih' => rw [outcome_bind_of_ok ih, ih']
  | stop _ ih => exact outcome_bind_of_error ih

/-- Where bytes are reported missing, the run ends with the fixed-size read that misses them. -/
theorem exists_last (h : d.Run data p accesses result q) {needed remaining : Nat}
    (hresult : result = .error (.truncated needed remaining)) :
    ∃ before, accesses = before ++ [⟨needed, q, .error (.truncated needed remaining), q⟩] := by
  induction h with
  | pure _ _ => cases hresult
  | throw _ hother =>
      obtain rfl := Except.error.inj hresult
      exact absurd rfl (hother needed remaining)
  | remaining _ => cases hresult
  | exact _ => cases hresult
  | short htake =>
      obtain ⟨rfl, rfl, -⟩ := (Access.sound_of_take? htake).eq_of_error
      obtain ⟨rfl, rfl⟩ := ProtocolError.truncated.inj (Except.error.inj hresult)
      exact ⟨[], rfl⟩
  | @next _ _ _ _ _ _ _ _ before _ _ _ _ _ ih' =>
      obtain ⟨between, rfl⟩ := ih' hresult
      exact ⟨before ++ between, (List.append_assoc ..).symm⟩
  | stop _ ih =>
      obtain rfl := Except.error.inj hresult
      exact ih rfl

/-- Bytes are reported missing only where they are, and all that are left are reported. -/
theorem truncated (h : d.Run data p accesses result q) {needed remaining : Nat}
    (hresult : result = .error (.truncated needed remaining)) :
    remaining < needed ∧ remaining = data.length - q := by
  obtain ⟨before, rfl⟩ := h.exists_last hresult
  have hlast := h.sound _ (List.mem_append_right before (List.mem_singleton_self _))
  obtain ⟨-, herror, hshort⟩ := hlast.eq_of_error
  obtain ⟨-, rfl⟩ := ProtocolError.truncated.inj herror
  exact ⟨hshort, rfl⟩

theorem unique {accesses' : List Access} {result' : Except ProtocolError α} {q' : Nat} (hp : p ≤ data.length)
    (h : d.Run data p accesses result q) (h' : d.Run data p accesses' result' q') : result = result' ∧ q = q' := by
  obtain ⟨hresult, hrest⟩ := Prod.mk.inj (h.outcome.symm.trans h'.outcome)
  have hlength := congrArg List.length hrest
  rw [List.length_drop, List.length_drop] at hlength
  have hq := (h.within hp).2
  have hq' := (h'.within hp).2
  exact ⟨hresult, by omega⟩

end Run

theorem run_exact_cases {data : Bytes} {p : Nat} (hp : p ≤ data.length) (n : Nat) :
    data.length - p < n ∧ (exact n).Run data p [⟨n, p, .error (.truncated n (data.length - p)), p⟩]
        (.error (.truncated n (data.length - p))) p ∨
      ∃ w, data.slice? p (p + n) = some (Bytes.Block.bytes w) ∧
        (exact n).Run data p [⟨n, p, .ok w.bytes, p + n⟩] (.ok w) (p + n) := by
  rcases Cursor.take?_cases hp n with ⟨hshort, htake⟩ | ⟨hfits, htake⟩
  · exact .inl ⟨hshort, .short htake⟩
  · have hlength : ((data.drop p).take n).length = n := by
      rw [List.length_take, List.length_drop]
      omega
    exact .inr ⟨⟨(data.drop p).take n, hlength⟩, Bytes.slice?_of_le hfits, .exact htake⟩

/-- A reader that has a run from every position in the data. -/
def Runnable (d : Decoder α) : Prop :=
  ∀ (data : Bytes) (p : Nat), p ≤ data.length → ∃ accesses result q, d.Run data p accesses result q

theorem Runnable.bind (hd : d.Runnable) (hf : ∀ v, (f v).Runnable) : (d >>= f).Runnable := by
  intro data p hp
  obtain ⟨before, result, q, hrun⟩ := hd data p hp
  cases result with
  | error e => exact ⟨before, .error e, q, .stop hrun⟩
  | ok v =>
      obtain ⟨after, result, r, hrest⟩ := hf v data q (hrun.within hp).2
      exact ⟨before ++ after, result, r, .next hrun hrest⟩

theorem runnable_throw {e : ProtocolError} (h : ∀ needed remaining, e ≠ .truncated needed remaining) :
    (throw e : Decoder α).Runnable := fun _ p _ => ⟨[], .error e, p, .throw p h⟩

theorem runnable_exact (n : Nat) : (exact n).Runnable := by
  intro data p hp
  rcases run_exact_cases hp n with ⟨-, hrun⟩ | ⟨w, -, hrun⟩
  · exact ⟨_, _, p, hrun⟩
  · exact ⟨_, .ok w, p + n, hrun⟩

theorem atEnd_eq : atEnd = do return (← remaining) == 0 := by
  funext input
  cases input <;> rfl

theorem runnable_atEnd : atEnd.Runnable := by
  rw [atEnd_eq]
  refine Runnable.bind (fun data p hp => ?_) fun left data p _ => ⟨_, _, p, .pure _ p⟩
  exact ⟨[], _, p, .remaining (Cursor.remaining?_of_le hp)⟩

/-- An error that can arise wherever an input ends says nothing about how many bytes are left. -/
theorem ne_truncated_of_arises {e : ProtocolError} (h : ∀ rest, e.Arises rest) (needed remaining : Nat) :
    e ≠ .truncated needed remaining := by
  rintro rfl
  have harises := h (List.replicate (remaining + 1) 0)
  generalize hrest : List.replicate (remaining + 1) (0 : UInt8) = rest at harises
  cases harises
  have hlength := congrArg List.length hrest
  rw [List.length_replicate] at hlength
  omega

theorem Plain.runnable (hd : d.Plain) : d.Runnable := by
  induction hd with
  | pure v => exact fun _ p _ => ⟨[], .ok v, p, .pure v p⟩
  | throw h => exact runnable_throw (ne_truncated_of_arises h)
  | exact n => exact runnable_exact n
  | bind _ _ ihd ihf => exact ihd.bind ihf

theorem compositional_runnable : Compositional Runnable := ⟨Plain.runnable, Runnable.bind⟩

end Decoder

end StateHistory
