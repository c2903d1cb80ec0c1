import StateHistory.Proofs.Configuration.Loading
import StateHistory.Proofs.Text.Digits

/-! # Whole numbers in a configuration

An integer is cut to the width of its option without a check: of the integers that a configuration can give, those of
the option's width are kept and all others are replaced by the number with the same remainder
(`Options.wrapped_of_integer`). A height below zero becomes a height that no block has yet
(`Options.height_below_zero_accepted`). Only the text of an integer beyond 64 bits is refused. -/

namespace StateHistory

open StateHistory.Configuration

namespace Configuration

variable {n : Int} {t : Setting} {content : Scalar} {s : String} {c : Char} {cs : List Char}

theorem truth?_eq_none (hs : s.toList = c :: cs) (hc : c.toLower ∉ ['t', 'o', 'y', 'f', 'n']) :
    Scalar.truth? s = none := by
  have hword : ∀ word : String, (∃ d ds, word.toList = d :: ds ∧ d ∈ ['t', 'o', 'y', 'f', 'n']) →
      String.ofList (s.toList.map Char.toLower) ≠ word := by
    rintro word ⟨d, ds, hword, hd⟩ rfl
    rw [String.toList_ofList, hs, List.map_cons] at hword
    rw [← (List.cons.inj hword).1] at hd
    exact hc hd
  have hno : ∀ words : List String, (∀ word ∈ words, ∃ d ds, word.toList = d :: ds ∧ d ∈ ['t', 'o', 'y', 'f', 'n']) →
      String.ofList (s.toList.map Char.toLower) ∉ words := fun words hwords hmem =>
    hword _ (hwords _ hmem) rfl
  rw [Scalar.truth?, if_neg (hno _ ?_), if_neg (hno _ ?_)]
  · simp
  · simp

theorem truth?_toString (n : Int) : Scalar.truth? (toString n) = none := by
  have hdigit : ∀ k < 10, (Char.ofNat (48 + k)).toLower ∉ ['t', 'o', 'y', 'f', 'n'] := by decide
  cases n with
  | ofNat m =>
      obtain ⟨c, cs, hcs, hc⟩ := Digits.head_toDigits m
      obtain ⟨k, hk, rfl⟩ := Decimal.exists_of_isDigit hc
      exact truth?_eq_none (Nat.toList_repr.trans hcs) (hdigit k hk)
  | negSucc m =>
      exact truth?_eq_none (Digits.toList_toString_negSucc m) (by decide)

theorem toNat_ofInt_word32 (n : Int) : ((UInt32.ofInt n).toNat : Int) = n % UInt32.size := by
  have hsize : (UInt32.size : Int) = 4294967296 := rfl
  have hword : (UInt32.ofInt n).toNat = (n % 4294967296).toNat := UInt32.toNat_ofNat_of_lt' (by omega)
  rw [hsize]
  omega

theorem toNat_ofInt_word64 (n : Int) : ((UInt64.ofInt n).toNat : Int) = n % UInt64.size := by
  have hsize : (UInt64.size : Int) = 18446744073709551616 := rfl
  have hword : (UInt64.ofInt n).toNat = (n % 18446744073709551616).toNat := UInt64.toNat_ofNat_of_lt' (by omega)
  rw [hsize]
  omega

/-- How many numbers a setting of whole numbers can be. -/
def Setting.size? : Setting → Option Nat
  | startBlock | stopBefore => some UInt32.size
  | initialDelay | maxDelay => some UInt64.size
  | host | port | factor => none

/-- The number that an option is. -/
def Reading.toNat? : Reading → Option Nat
  | word32 w => some w.toNat
  | word64 w => some w.toNat
  | text _ | float _ => none

/-- Whether a scalar is an integer or its decimal text. -/
def Scalar.Spells (content : Scalar) (n : Int) : Prop := content = .integer n ∨ content = .text (toString n)

theorem Scalar.integer?_text (n : Int) : Scalar.integer? (.text (toString n)) =
    if -0x8000000000000000 ≤ n ∧ n < 0x8000000000000000 then some n else none := by
  rw [Scalar.integer?, truth?_toString]
  exact Digits.integer?_toString n 0x8000000000000000

theorem Setting.exists_integer? {size : Nat} {r : Reading} (hsize : t.size? = some size)
    (hr : t.read? content = some r) : ∃ n m, content.integer? = some n ∧ r.toNat? = some m ∧ (m : Int) = n % size := by
  cases t with
  | host | port | factor => cases hsize
  | startBlock | stopBefore =>
      obtain ⟨n, hn, rfl⟩ := Option.map_eq_some_iff.mp hr
      cases hsize
      exact ⟨n, _, hn, rfl, toNat_ofInt_word32 n⟩
  | initialDelay | maxDelay =>
      obtain ⟨n, hn, rfl⟩ := Option.map_eq_some_iff.mp hr
      cases hsize
      exact ⟨n, _, hn, rfl, toNat_ofInt_word64 n⟩

theorem Scalar.Spells.integer?_eq {m : Int} (h : content.Spells n) (hm : content.integer? = some m) : m = n := by
  rcases h with rfl | rfl
  · exact (Option.some.inj hm).symm
  · rw [Scalar.integer?_text] at hm
    split at hm <;> cases hm
    rfl

/-- A layer that gives a setting nothing but an integer. -/
structure Layer.GivesInteger (layer : Layer) (t : Setting) (n : Int) : Prop where
  given_ne_nil : t.given layer ≠ []
  spells : ∀ w ∈ t.given layer, ∃ content, w.scalar? = some content ∧ content.Spells n
  fromStart : layer.FromStart t.part

/-- A layer that gives a setting nothing. -/
structure Layer.Silent (layer : Layer) (t : Setting) : Prop where
  given_eq_nil : t.given layer = []
  fromStart : layer.FromStart t.part

end Configuration

namespace Options

variable {o : Options} {file : Layer} {env : Environment} {overrides : Overrides}

/-- If the highest layer that gives a setting of whole numbers a value gives it an integer, then the option is the
number of its width with the same remainder. So it is this integer exactly if the integer is one of its width. The text
of an integer beyond 64 bits is refused.

A section has to keep what a source gives it: one that a file writes as an array loses all items as soon as a variable
sets a member. -/
theorem wrapped_of_integer (h : Loaded file env overrides o) {t : Setting} {size : Nat} (hsize : t.size? = some size)
    {lower higher : List Layer} {layer : Layer} (hlayers : layersOf file env overrides = lower ++ layer :: higher)
    (hkeeps : lower = [] ∨ t.part.Keeps (layer :: higher)) (hhigher : ∀ l ∈ higher, l.Silent t) {n : Int}
    (hgives : layer.GivesInteger t n) :
    (∃ m, (o.get t).toNat? = some m ∧ (m : Int) = n % size ∧ ((m : Int) = n ↔ 0 ≤ n ∧ n < size)) ∧
      ((∀ w ∈ t.given layer, w.scalar? = some (.text (toString n))) →
        -0x8000000000000000 ≤ n ∧ n < 0x8000000000000000) := by
  obtain ⟨w, content, hfound, hw, hsome, hread⟩ := h.exists_found t
  have hstart : ∀ l ∈ layer :: higher, Layer.FromStart l t.part :=
    List.forall_mem_cons.mpr ⟨hgives.fromStart, fun l hl => (hhigher l hl).fromStart⟩
  have hmem : w ∈ t.given layer := hfound.mem_given hw hsome hlayers hkeeps hgives.given_ne_nil
    (fun l hl => (hhigher l hl).given_eq_nil) hstart
  have hspells : content.Spells n := by
    obtain ⟨content', hcontent, hspells⟩ := hgives.spells w hmem
    cases hw.symm.trans hcontent
    exact hspells
  obtain ⟨n', m, hinteger, hm, hmod⟩ := Setting.exists_integer? hsize hread
  obtain rfl := hspells.integer?_eq hinteger
  have hpos : (0 : Int) < size := by
    cases t <;> cases hsize <;> decide
  refine ⟨⟨m, hm, hmod, ?_⟩, fun htexts => ?_⟩
  · rw [hmod]
    exact ⟨fun heq => heq ▸ ⟨Int.emod_nonneg _ (by omega), Int.emod_lt_of_pos _ hpos⟩,
      fun ⟨hlow, hhigh⟩ => Int.emod_eq_of_lt hlow hhigh⟩
  · cases hw.symm.trans (htexts w hmem)
    rw [Scalar.integer?_text] at hinteger
    split at hinteger
    · assumption
    · cases hinteger

/-- A height below zero in the environment, over another one in a text. -/
theorem wrapped_variable : ∃ file o, Loaded file [("SHIP_STREAM__START_BLOCK", "-2")] ⟨none, none, none, none⟩ o ∧
    Layer.GivesInteger (Environment.layer [("SHIP_STREAM__START_BLOCK", "-2")]) .startBlock (-2) ∧
    ∃ m, (o.get .startBlock).toNat? = some m ∧ (m : Int) = -2 % UInt32.size := by
  have hlayer : (Form.toml.layer? none "[stream]\nstart_block = 7").isSome := by decide +kernel
  have hload : ((ofToml "[stream]\nstart_block = 7" [("SHIP_STREAM__START_BLOCK", "-2")]
      ⟨none, none, none, none⟩).toOption.map fun _ => ()) = some () := by decide +kernel
  obtain ⟨file, hfile⟩ := Option.isSome_iff_exists.mp hlayer
  obtain ⟨o, ho, -⟩ := exists_ok_of_toOption_map hload
  have hgiven : (Setting.startBlock.given (Environment.layer [("SHIP_STREAM__START_BLOCK", "-2")])).map Value.scalar? =
      [some (.text "-2")] := by decide +kernel
  have hpaths : (Section.stream.changes (Environment.layer [("SHIP_STREAM__START_BLOCK", "-2")])).map Prod.fst =
      [[.member "start_block"]] := by decide +kernel
  have htabular : Layer.TabularIn (Environment.layer [("SHIP_STREAM__START_BLOCK", "-2")]) .stream :=
    .of_paths hpaths (List.forall_mem_singleton.mpr ⟨_, _, rfl⟩)
  have hgives : Layer.GivesInteger (Environment.layer [("SHIP_STREAM__START_BLOCK", "-2")]) .startBlock (-2) := by
    refine ⟨fun hnil => ?_, fun w hw => ?_, htabular.fromStart⟩
    · rw [hnil] at hgiven
      cases hgiven
    · have hmem := List.mem_map_of_mem (f := Value.scalar?) hw
      rw [hgiven] at hmem
      exact ⟨_, List.mem_singleton.mp hmem, .inr rfl⟩
  have hhigher : ∀ l ∈ [Overrides.layer ⟨none, none, none, none⟩], l.Silent .startBlock :=
    List.forall_mem_singleton.mpr ⟨rfl, fun c hc => nomatch hc⟩
  have hkeeps : Section.stream.Keeps [Environment.layer [("SHIP_STREAM__START_BLOCK", "-2")],
      Overrides.layer ⟨none, none, none, none⟩] :=
    ⟨.inl htabular, ⟨.inl nofun, trivial⟩⟩
  have hlayers : layersOf file [("SHIP_STREAM__START_BLOCK", "-2")] ⟨none, none, none, none⟩ =
      [defaults, file] ++ Environment.layer [("SHIP_STREAM__START_BLOCK", "-2")] ::
        [Overrides.layer ⟨none, none, none, none⟩] := rfl
  obtain ⟨⟨m, hm, hmod, -⟩, -⟩ :=
    wrapped_of_integer (t := .startBlock) (loaded_of_ofToml hfile ho) rfl hlayers (.inr hkeeps) hhigher hgives
  exact ⟨file, o, loaded_of_ofToml hfile ho, hgives, m, hm, hmod⟩

/-- A height below zero is accepted as the largest one. -/
theorem height_below_zero_accepted : ∃ o, ofToml "[stream]\nstart_block = -1\n" [] ⟨none, none, none, none⟩ = .ok o ∧
    o.get .startBlock = .word32 4294967295 := by
  have hload : ((ofToml "[stream]\nstart_block = -1\n" [] ⟨none, none, none, none⟩).toOption.map fun o =>
      o.get .startBlock) = some (.word32 4294967295) := by decide +kernel
  exact exists_ok_of_toOption_map hload

end Options

end StateHistory
