import StateHistory.Proofs.Json.Grammar

/-! # The JSON texts that are read

The reader accepts nothing but what the grammar spells, so that a text is read as a tree exactly if it spells it
(`Tree.parse?_eq_some_iff`). Every function of the reader has a lemma that names the part of the grammar it finds;
those of the values are proved together, on the bound that they share (`Sound`). -/

namespace StateHistory.Json

variable {cs ds rest : List Char}

/-! ### Numerals -/

theorem span_eq (h : Digits.span 10 cs = (ds, rest)) : cs = ds ++ rest ∧ AreDigits ds := by
  cases h
  exact ⟨List.takeWhile_append_dropWhile.symm, List.all_eq_true.mp List.all_takeWhile⟩

theorem exists_sign {negative : Bool} (h : (match cs with
      | '-' :: cs => (true, cs)
      | '+' :: cs => (false, cs)
      | cs => (false, cs)) = (negative, ds)) :
    ∃ sign ∈ [[], ['+'], ['-']], cs = sign ++ ds ∧ negative = decide (sign = ['-']) := by
  split at h
  · cases h
    exact ⟨['-'], by decide, rfl, rfl⟩
  · cases h
    exact ⟨['+'], by decide, rfl, rfl⟩
  · cases h
    exact ⟨[], by decide, rfl, rfl⟩

theorem exists_of_marked {mark : Char} (hmark : mark ∈ ['e', 'E']) {negative marked : Bool} {e : Int}
    (hsign : (match cs with
      | '-' :: cs => (true, cs)
      | '+' :: cs => (false, cs)
      | cs => (false, cs)) = (negative, ds))
    (h : (match Digits.span 10 ds with
      | (ds, rest) => if ds.isEmpty then none else
          some (if negative then -(Digits.toNat 10 ds : Int) else Digits.toNat 10 ds, true, rest)) =
        some (e, marked, rest)) :
    ∃ text : ExponentText, mark :: cs = text.chars ++ rest ∧ e = text.value ∧ marked = true := by
  obtain ⟨sign, hmem, rfl, rfl⟩ := exists_sign hsign
  generalize hspan : Digits.span 10 ds = found at h
  obtain ⟨digits, tail⟩ := found
  obtain ⟨rfl, hdigits⟩ := span_eq hspan
  dsimp only at h
  split at h
  · cases h
  · rename_i hne
    cases h
    refine ⟨⟨mark, sign, digits, hmark, hmem, by simpa using hne, hdigits⟩, ?_, ?_, rfl⟩
    · rw [ExponentText.chars, List.cons_append, List.append_assoc]
    · rw [ExponentText.value]
      simp

theorem exists_of_exponentPart? {e : Int} {marked : Bool} (h : Tree.exponentPart? cs = some (e, marked, rest)) :
    ∃ text : Option ExponentText, cs = (text.map ExponentText.chars).getD [] ++ rest ∧
      e = (text.map ExponentText.value).getD 0 ∧ marked = text.isSome := by
  unfold Tree.exponentPart? at h
  split at h
  · split at h
    rename_i hsign
    have hmark : 'e' ∈ ['e', 'E'] := by decide
    obtain ⟨text, hchars, he, hmarked⟩ := exists_of_marked hmark hsign h
    exact ⟨some text, hchars, he, hmarked⟩
  · split at h
    rename_i hsign
    have hmark : 'E' ∈ ['e', 'E'] := by decide
    obtain ⟨text, hchars, he, hmarked⟩ := exists_of_marked hmark hsign h
    exact ⟨some text, hchars, he, hmarked⟩
  · cases h
    exact ⟨none, rfl, rfl, rfl⟩

theorem exists_of_places {whole places : List Char} {e : Int} {marked : Bool} (hne : whole ≠ [])
    (hwhole : AreDigits whole) (hzero : whole.head? = some '0' → whole.length = 1) (hplaces : AreDigits places)
    (negative : Bool) (h : Tree.exponentPart? cs = some (e, marked, rest)) :
    ∃ n : NumeralText, n.negative = negative ∧
      whole ++ ((if places = [] then [] else '.' :: places) ++ cs) = n.body ++ rest ∧
      ⟨negative, Digits.toNat 10 (whole ++ places), e - places.length, places.isEmpty && !marked⟩ = n.value := by
  obtain ⟨exponent, rfl, rfl, rfl⟩ := exists_of_exponentPart? h
  refine ⟨⟨negative, whole, places, exponent, hne, hwhole, hzero, hplaces⟩, rfl, ?_, ?_⟩
  · rw [NumeralText.body, List.append_assoc, List.append_assoc]
  · rw [NumeralText.value]
    cases exponent <;> rfl

theorem exists_of_unsignedNumeral? {negative : Bool} {v : Numeral}
    (h : Tree.unsignedNumeral? negative cs = some (v, rest)) :
    ∃ n : NumeralText, n.negative = negative ∧ cs = n.body ++ rest ∧ v = n.value := by
  unfold Tree.unsignedNumeral? at h
  generalize hspan : Digits.span 10 cs = found at h
  obtain ⟨whole, tail⟩ := found
  obtain ⟨rfl, hwhole⟩ := span_eq hspan
  dsimp only [bind, Option.bind, pure] at h
  split at h
  · cases h
  rename_i hlead
  obtain ⟨hne, hzero⟩ : whole ≠ [] ∧ (whole.head? = some '0' → whole.length = 1) := by
    simpa [not_or] using hlead
  split at h
  · rename_i behind
    generalize hspan : Digits.span 10 behind = found at h
    obtain ⟨places, behind⟩ := found
    obtain ⟨rfl, hplaces⟩ := span_eq hspan
    dsimp only at h
    split at h
    · cases h
    rename_i hsome
    split at h
    · cases h
    rename_i heq
    cases h
    obtain ⟨n, hn, hbody, hvalue⟩ := exists_of_places hne hwhole hzero hplaces negative heq
    refine ⟨n, hn, ?_, hvalue⟩
    rwa [if_neg (by simpa using hsome)] at hbody
  · split at h
    · cases h
    rename_i heq
    cases h
    have hplaces : AreDigits [] := List.forall_mem_nil _
    obtain ⟨n, hn, hbody, hvalue⟩ := exists_of_places hne hwhole hzero hplaces negative heq
    refine ⟨n, hn, ?_, hvalue⟩
    rwa [if_pos rfl, List.nil_append] at hbody

/-! ### Texts -/

theorem textChar_of_unitChar {u : Nat} {c : Option Char} (hu : IsUnit ds u) (h : Tree.unitChar u cs = (c, rest)) :
    TextChar c ('\\' :: 'u' :: (ds ++ cs)) rest := by
  unfold Tree.unitChar at h
  split at h
  · rename_i hwhole
    cases h
    exact .unit hu hwhole
  rename_i hhalf
  split at h
  · rename_i hhigh
    split at h
    · rename_i v tail hlow
      cases h
      obtain ⟨es, rfl, hv, hrange⟩ := exists_of_lowHalf? hlow
      exact .pair hu (by omega) hv hrange
    · rename_i hlow
      cases h
      refine .half hu (by omega) fun _ hstarts => ?_
      obtain ⟨es, v, tail, rfl, hv, hrange⟩ := hstarts
      rw [lowHalf?_unit hv hrange] at hlow
      cases hlow
  · rename_i hlow
    cases h
    exact .half hu (by omega) fun hhigh => absurd hhigh hlow

theorem mem_escapes {x c : Char} (h : Tree.shortEscape? x = some c) : (x, c) ∈ escapes := by
  unfold Tree.shortEscape? at h
  split at h
  all_goals cases h
  all_goals decide

theorem textChar_of_textChar? {c : Option Char} (hquote : ∀ ds, cs ≠ '"' :: ds)
    (h : Tree.textChar? cs = some (c, rest)) : TextChar c cs rest := by
  unfold Tree.textChar? at h
  split at h
  · rename_i behind
    cases hunit : Tree.unit? behind with
    | none =>
        rw [hunit] at h
        cases h
    | some found =>
        obtain ⟨u, tail⟩ := found
        obtain ⟨ds, rfl, hu⟩ := exists_of_unit? hunit
        rw [hunit] at h
        exact textChar_of_unitChar hu (Option.some.inj h)
  · obtain ⟨c, hc, h⟩ := Option.map_eq_some_iff.mp h
    cases h
    exact .escape (mem_escapes hc)
  · split at h
    · cases h
    · rename_i hplain
      cases h
      refine .plain ⟨Nat.not_lt.mp (not_or.mp hplain).1, ?_, (not_or.mp hplain).2⟩
      rintro rfl
      exact hquote _ rfl
  · cases h

theorem exists_of_textBody? {bound : Nat} {acc : Option (List Char)} {found : Option String}
    (h : Tree.textBody? bound acc cs = some (found, rest)) :
    ∃ s, TextBody s cs rest ∧ found = acc.bind fun a => s.map fun t => String.ofList (a.reverse ++ t) := by
  induction bound generalizing acc cs with
  | zero => cases h
  | succ bound ih =>
      by_cases hquote : ∃ ds, cs = '"' :: ds
      · obtain ⟨ds, rfl⟩ := hquote
        rw [Tree.textBody?] at h
        cases h
        refine ⟨some [], .close, ?_⟩
        cases acc <;> simp
      · rw [Tree.textBody?.eq_3 _ _ _ fun ds hds => hquote ⟨ds, hds⟩] at h
        obtain ⟨⟨c, tail⟩, hc, h⟩ := Option.bind_eq_some_iff.mp h
        obtain ⟨s, hs, rfl⟩ := ih h
        refine ⟨_, .char (textChar_of_textChar? (fun ds hds => hquote ⟨ds, hds⟩) hc) hs, ?_⟩
        cases acc with
        | none => rfl
        | some a =>
            cases c with
            | none => rfl
            | some c =>
                cases s with
                | none => rfl
                | some t =>
                    change some (String.ofList ((c :: a).reverse ++ t)) = _
                    rw [List.reverse_cons, List.append_assoc]
                    rfl

/-! ### Values -/

theorem Blanks.trans (h : Blanks cs ds) (h' : Blanks ds rest) : Blanks cs rest := by
  obtain ⟨before, hbefore, rfl⟩ := h
  obtain ⟨behind, hbehind, rfl⟩ := h'
  refine ⟨before ++ behind, fun c hc => ?_, (List.append_assoc ..).symm⟩
  exact (List.mem_append.mp hc).elim (hbefore c) (hbehind c)

theorem blanks_of_skipBlanks_eq (h : Tree.skipBlanks cs = ds) : Blanks cs ds := by
  subst h
  exact blanks_skipBlanks cs

/-- Whether blanks may stand in front of a part. -/
def Part.Loose : Part → Prop
  | value _ => False
  | _ => True

theorem Spells.before {part : Part} (h : Spells part ds rest) (hloose : part.Loose) (hblanks : Blanks cs ds) :
    Spells part cs rest := by
  induction h generalizing cs with
  | null | yes | no | numeral | text | emptyArray | array | emptyObject | object => exact hloose.elim
  | padded hbefore h hafter => exact .padded (hblanks.trans hbefore) h hafter
  | lastItem _ ih => exact .lastItem (ih trivial hblanks)
  | item _ hmore ih => exact .item (ih trivial hblanks) hmore
  | member hbefore hkey hafter h => exact .member (hblanks.trans hbefore) hkey hafter h
  | lastMember _ ih => exact .lastMember (ih trivial hblanks)
  | members _ hmore ih => exact .members (ih trivial hblanks) hmore

theorem Spells.behind {t : Tree} (h : Spells (.padded t) cs ds) (hblanks : Blanks ds rest) :
    Spells (.padded t) cs rest := by
  cases h with
  | padded hbefore h hafter => exact .padded hbefore h (hafter.trans hblanks)

theorem spells_numeral {v : Numeral} {negative : Bool} (h : Tree.unsignedNumeral? negative cs = some (v, rest)) :
    Spells (.value (.numeral v)) (if negative then '-' :: cs else cs) rest := by
  obtain ⟨n, rfl, rfl, rfl⟩ := exists_of_unsignedNumeral? h
  have hchars : (if n.negative then '-' :: (n.body ++ rest) else n.body ++ rest) = n.chars ++ rest := by
    rw [NumeralText.chars]
    cases n.negative <;> rfl
  rw [hchars]
  exact .numeral n

/-- What the reader finds within a bound is spelled. -/
structure Sound (bound : Nat) : Prop where
  value {cs rest : List Char} {t : Tree} (h : Tree.value? bound cs = some (t, rest)) : Spells (.padded t) cs rest
  items {acc : List Tree} {cs rest : List Char} {t : Tree} (h : Tree.items? bound acc cs = some (t, rest)) :
    ∃ ts, t = .array (acc.reverse ++ ts) ∧ Spells (.items ts) cs (']' :: rest)
  members {acc : List (Option String × Tree)} {cs rest : List Char} {t : Tree}
    (h : Tree.members? bound acc cs = some (t, rest)) :
    ∃ ms, t = .object (acc.reverse ++ ms) ∧ Spells (.members ms) cs ('\x7d' :: rest)

namespace Sound

variable {bound : Nat}

theorem value_succ {t : Tree} (hsound : Sound bound) (h : Tree.value? (bound + 1) cs = some (t, rest)) :
    Spells (.padded t) cs rest := by
  have hnone : Blanks rest rest := ⟨[], List.forall_mem_nil _, rfl⟩
  have hblanks := blanks_skipBlanks cs
  rw [Tree.value?] at h
  generalize Tree.skipBlanks cs = ds at h hblanks
  refine .padded hblanks ?_ hnone
  split at h
  · cases h
    exact .null
  · cases h
    exact .yes
  · cases h
    exact .no
  · obtain ⟨⟨found, tail⟩, hfound, h⟩ := Option.map_eq_some_iff.mp h
    cases h
    obtain ⟨s, hs, rfl⟩ := exists_of_textBody? hfound
    exact .text hs
  · obtain ⟨⟨v, tail⟩, hv, h⟩ := Option.map_eq_some_iff.mp h
    cases h
    exact spells_numeral hv
  · rename_i tail
    split at h
    · rename_i after hclose
      cases h
      exact .emptyArray (blanks_of_skipBlanks_eq hclose)
    · obtain ⟨ts, rfl, hts⟩ := hsound.items h
      exact .array (hts.before trivial (blanks_skipBlanks tail))
  · rename_i tail
    split at h
    · rename_i after hclose
      cases h
      exact .emptyObject (blanks_of_skipBlanks_eq hclose)
    · obtain ⟨ms, rfl, hms⟩ := hsound.members h
      exact .object (hms.before trivial (blanks_skipBlanks tail))
  · obtain ⟨⟨v, tail⟩, hv, h⟩ := Option.map_eq_some_iff.mp h
    cases h
    exact spells_numeral hv

theorem items_succ {t : Tree} {acc : List Tree} (hsound : Sound bound)
    (h : Tree.items? (bound + 1) acc cs = some (t, rest)) :
    ∃ ts, t = .array (acc.reverse ++ ts) ∧ Spells (.items ts) cs (']' :: rest) := by
  rw [Tree.items?] at h
  obtain ⟨⟨v, tail⟩, hv, h⟩ := Option.bind_eq_some_iff.mp h
  have hv := hsound.value hv
  dsimp only at h
  split at h
  · rename_i after hcomma
    obtain ⟨ts, rfl, hts⟩ := hsound.items h
    refine ⟨v :: ts, ?_, .item (hv.behind (blanks_of_skipBlanks_eq hcomma)) hts⟩
    rw [List.reverse_cons, List.append_assoc]
    rfl
  · rename_i after hclose
    cases h
    exact ⟨[v], congrArg _ List.reverse_cons, .lastItem (hv.behind (blanks_of_skipBlanks_eq hclose))⟩
  · cases h

theorem members_succ {t : Tree} {acc : List (Option String × Tree)} (hsound : Sound bound)
    (h : Tree.members? (bound + 1) acc cs = some (t, rest)) :
    ∃ ms, t = .object (acc.reverse ++ ms) ∧ Spells (.members ms) cs ('\x7d' :: rest) := by
  rw [Tree.members?] at h
  split at h
  · rename_i ds hquote
    obtain ⟨⟨key, es⟩, hkey, h⟩ := Option.bind_eq_some_iff.mp h
    obtain ⟨s, hs, rfl⟩ := exists_of_textBody? hkey
    dsimp only at h
    split at h
    · rename_i fs hcolon
      obtain ⟨⟨v, tail⟩, hv, h⟩ := Option.bind_eq_some_iff.mp h
      have hv := hsound.value hv
      have hmember : ∀ {gs}, Blanks tail gs → Spells (.member (s.map String.ofList, v)) cs gs := fun hgs =>
        .member (blanks_of_skipBlanks_eq hquote) hs (blanks_of_skipBlanks_eq hcolon) (hv.behind hgs)
      dsimp only at h
      split at h
      · rename_i after hcomma
        obtain ⟨ms, rfl, hms⟩ := hsound.members h
        refine ⟨_ :: ms, ?_, .members (hmember (blanks_of_skipBlanks_eq hcomma)) hms⟩
        rw [List.reverse_cons, List.append_assoc]
        rfl
      · rename_i after hclose
        cases h
        exact ⟨[_], congrArg _ List.reverse_cons, .lastMember (hmember (blanks_of_skipBlanks_eq hclose))⟩
      · cases h
    · cases h
  · cases h

end Sound

theorem sound (bound : Nat) : Sound bound := by
  induction bound with
  | zero => constructor <;> simp [Tree.value?, Tree.items?, Tree.members?]
  | succ bound ih => exact ⟨ih.value_succ, ih.items_succ, ih.members_succ⟩

/-- The trees that a text is read as are those that it spells. -/
theorem Tree.parse?_eq_some_iff {t : Tree} {text : String} : Tree.parse? text = some t ↔ t.SpelledBy text := by
  refine ⟨fun h => ?_, Tree.parse?_of_spelledBy⟩
  rw [Tree.parse?] at h
  split at h
  · rename_i tree rest hvalue
    split at h
    · rename_i hend
      cases h
      exact ((sound _).value hvalue).behind (blanks_of_skipBlanks_eq (List.isEmpty_iff.mp hend))
    · cases h
  · cases h

end StateHistory.Json
