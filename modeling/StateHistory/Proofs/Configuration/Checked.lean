import StateHistory.Configuration.Options
import StateHistory.Proofs.Schema.Declaration

/-! # Options that were accepted

Options reach a client only by way of `Options.check`, whatever they were read from. What it has made sure of then
(`Options.Checked`) is what a client may rely on. -/

namespace StateHistory.Options

variable {o : Options}

/-- Options that a configuration was accepted with. -/
def Accepted (o : Options) : Prop :=
  (∃ text env overrides, ofToml text env overrides = .ok o) ∨
    ∃ files name env overrides, load files name env overrides = .ok o

/-- What a client may rely on. -/
structure Checked (o : Options) : Prop where
  location_ok : ∃ url, o.node.location = .ok url
  initialDelay_pos : 0 < o.reconnect.initialDelay.toNat
  initialDelay_le : o.reconnect.initialDelay.toNat ≤ o.reconnect.maxDelay.toNat
  factor_number : o.reconnect.factor.isNaN = false
  factor_ge : o.reconnect.factor.lt (Binary64.ofNat 1) = false
  startBlock_lt : o.stream.stopBefore ≠ 0 → o.stream.startBlock < o.stream.stopBefore

theorem checked_of_check (h : o.check = .ok ()) : o.Checked := by
  obtain ⟨url, hlocation⟩ : ∃ url, o.node.location = .ok url := by
    cases hlocation : o.node.location with
    | ok url => exact ⟨url, rfl⟩
    | error e =>
        rw [check, hlocation] at h
        cases h
  rw [check, hlocation] at h
  simp only [bind, Except.bind, pure, Except.pure, throw, throwThe, MonadExceptOf.throw] at h
  split_ifs at h with hzero hlimit hfactor hstop
  all_goals cases h
  rw [Bool.or_eq_true, not_or, Bool.not_eq_true, Bool.not_eq_true] at hfactor
  have hpositive : o.reconnect.initialDelay.toNat ≠ 0 := fun hnat => hzero (UInt64.toNat_inj.mp hnat)
  exact {
    location_ok := ⟨url, hlocation⟩
    initialDelay_pos := Nat.pos_of_ne_zero hpositive
    initialDelay_le := UInt64.le_iff_toNat_le.mp (UInt64.not_lt.mp hlimit)
    factor_number := hfactor.1
    factor_ge := hfactor.2
    startBlock_lt := fun hne => UInt32.not_le.mp fun hle => hstop ⟨hne, hle⟩ }

theorem Accepted.checked (h : o.Accepted) : o.Checked := by
  have hlayers : ∀ {file env overrides}, ofLayers file env overrides = .ok o → o.check = .ok () := by
    intro file env overrides hread
    obtain ⟨options, -, hcheck⟩ := bind_eq_ok_iff.mp hread
    obtain ⟨⟨⟩, hok, ho⟩ := bind_eq_ok_iff.mp hcheck
    obtain rfl := Except.ok.inj ho
    exact hok
  refine checked_of_check ?_
  rcases h with ⟨text, env, overrides, h⟩ | ⟨files, name, env, overrides, h⟩
  · rw [ofToml] at h
    split at h
    · exact hlayers h
    · cases h
  · obtain ⟨layer, -, h⟩ := bind_eq_ok_iff.mp h
    exact hlayers h

/-! ### An example -/

/-- Options with a height to stop before, and with short delays. -/
def bounded : Options where
  node := ⟨"127.0.0.1", "8080"⟩
  stream := ⟨0, 5⟩
  reconnect := ⟨100, 30000, Binary64.ofNat 2⟩

theorem accepted_bounded : bounded.Accepted := by
  have hread : (ofToml "stream.stop_before = 5\nreconnect.initial_delay_ms = 100" []
      ⟨none, none, none, none⟩).toOption.map id = some bounded := by decide +kernel
  obtain ⟨o, ho, rfl⟩ := exists_ok_of_toOption_map hread
  exact .inl ⟨_, _, _, ho⟩

end StateHistory.Options
