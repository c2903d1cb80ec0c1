import Mathlib.Data.Bool.AllAny
import StateHistory.Endpoint.Basic
import StateHistory.Proofs.Endpoint.Host
import StateHistory.Proofs.Text.Digits

/-! # The location of an endpoint

The location of an endpoint's web socket is written around the host and then read as any location is. It designates
the endpoint that is dialed exactly if the host holds none of the characters that have a meaning elsewhere in a
location (`Endpoint.designates_iff`). A host that holds one of them is not refused (`Endpoint.path_in_host`). -/

namespace StateHistory

variable {c : Char} {cs host ds : List Char} {u : Host} {e : Endpoint} {url : Url}

/-! ### Hosts in brackets -/

/-- The characters that are no part of a host or a port in a location: what ends the authority, what ends the name of
a user, and what is dropped. -/
def Url.marks : List Char := ['/', '\\', '?', '#', '@', '\t', '\n', '\r']

/-- A host as it stands in a location: an address of version 6 has brackets. -/
def Host.bracketed (host : List Char) : List Char := if ':' ∈ host then '[' :: (host ++ [']']) else host

theorem Url.isForbidden_of_mem_marks (h : c ∈ marks) : Domain.isForbidden c ∧ c ≠ '%' := by
  have hmarks : ∀ c ∈ marks, Domain.isForbidden c ∧ c ≠ '%' := List.all_iff_forall_prop.mp (by decide)
  exact hmarks c h

theorem Address.IsAddressChar.not_mem_marks (h : IsAddressChar c) : c ∉ '[' :: ']' :: Url.marks := by
  have hmarks : ∀ c ∈ '[' :: ']' :: Url.marks, Digits.isDigit 16 c = false ∧ c ≠ ':' ∧ c ≠ '.' :=
    List.all_iff_forall_prop.mp (by decide)
  intro hc
  obtain ⟨hdigit, hcolon, hpoint⟩ := hmarks c hc
  rcases h with h | h | h
  · rw [hdigit] at h
    cases h
  · exact hcolon h
  · exact hpoint h

theorem Host.exists_of_parse_bracket (h : parse ('[' :: cs) = .ok u) :
    ∃ address groups, cs = address ++ [']'] ∧ Address.ipv6? address = some groups := by
  rw [parse] at h
  by_cases hlast : cs.getLast? = some ']'
  · rw [if_pos hlast] at h
    cases hgroups : Address.ipv6? cs.dropLast with
    | none =>
        rw [hgroups] at h
        cases h
    | some groups =>
        rw [hgroups] at h
        cases h
        obtain ⟨address, rfl⟩ := List.getLast?_eq_some_iff.mp hlast
        rw [List.dropLast_concat] at hgroups
        exact ⟨address, groups, rfl, hgroups⟩
  · rw [if_neg hlast] at h
    cases h

theorem Host.parse_of_ne_bracket (hc : c ≠ '[') : parse (c :: cs) = ofName (c :: cs) := by
  unfold parse
  split
  · rename_i heq
    cases heq
  · rename_i heq
    exact absurd (List.cons.inj heq).1 hc
  · rfl

theorem Host.not_mem_marks_of_parse (h : parse cs = .ok u) (hc : c ∈ cs) : c ∉ Url.marks := by
  intro hmark
  cases cs with
  | nil => cases hc
  | cons d cs =>
      by_cases hd : d = '['
      · subst hd
        obtain ⟨address, groups, rfl, hgroups⟩ := exists_of_parse_bracket h
        rcases List.mem_cons.mp hc with rfl | hc
        · exact absurd hmark (by decide)
        rcases List.mem_append.mp hc with hc | hc
        · exact (Address.chars_of_ipv6? hgroups hc).not_mem_marks
            (List.mem_cons_of_mem _ (List.mem_cons_of_mem _ hmark))
        · rw [List.mem_singleton.mp hc] at hmark
          exact absurd hmark (by decide)
      · rw [parse_of_ne_bracket hd] at h
        obtain ⟨hforbidden, hpercent⟩ := Url.isForbidden_of_mem_marks hmark
        exact not_isForbidden_of_ofName h hc hpercent hforbidden

/-! ### Splitting an authority -/

theorem append_cons_inj_last {α : Type} {a b p q : List α} {x : α} (hp : x ∉ p) (hq : x ∉ q)
    (h : a ++ x :: p = b ++ x :: q) : a = b ∧ p = q := by
  rcases List.append_eq_append_iff.mp h with ⟨k, rfl, hk⟩ | ⟨k, rfl, hk⟩
  · cases k with
    | nil => exact ⟨(List.append_nil a).symm, (List.cons.inj hk).2⟩
    | cons y k =>
        obtain ⟨-, rfl⟩ := List.cons.inj hk
        exact absurd (List.mem_append_right k (List.mem_cons_self ..)) hp
  · cases k with
    | nil => exact ⟨List.append_nil b, (List.cons.inj hk).2.symm⟩
    | cons y k =>
        obtain ⟨-, rfl⟩ := List.cons.inj hk
        exact absurd (List.mem_append_right k (List.mem_cons_self ..)) hq

namespace Url

theorem splitHost_append (inside : Bool) (cs : List Char) :
    (splitHost inside cs).1 ++ (splitHost inside cs).2 = cs := by
  induction cs generalizing inside with
  | nil => rfl
  | cons c cs ih =>
      rw [splitHost]
      split
      · rfl
      · exact congrArg (c :: ·) (ih _)

theorem splitHost_snd (inside : Bool) (cs : List Char) :
    (splitHost inside cs).2 = [] ∨ ∃ rest, (splitHost inside cs).2 = ':' :: rest := by
  induction cs generalizing inside with
  | nil => exact .inl rfl
  | cons c cs ih =>
      rw [splitHost]
      split
      · rename_i h
        exact .inr ⟨cs, by rw [h.1]⟩
      · exact ih _

theorem not_mem_of_parsePort {port : Option Nat} (h : parsePort (':' :: cs) = .ok port) : ':' ∉ cs := by
  intro hmem
  have hall : cs.all (Digits.isDigit 10) = false :=
    List.all_eq_false.mpr ⟨':', hmem, by decide⟩
  rw [parsePort, if_neg (by simpa using List.ne_nil_of_mem hmem), Digits.toNat?, hall, Bool.and_false] at h
  cases h

theorem parsePort_toDigits {port : Nat} (h : port < 65536) :
    parsePort (':' :: Nat.toDigits 10 port) = .ok (if port = defaultPort then none else some port) := by
  have hne : (Nat.toDigits 10 port).isEmpty = false := by simp
  rw [parsePort, hne, if_neg Bool.false_ne_true, Digits.toNat?_toDigits]
  exact if_neg (by omega)

theorem split_of_notMem {separator : Char} (h : separator ∉ cs) : Text.split separator cs = [cs] := by
  induction cs with
  | nil => rfl
  | cons c cs ih =>
      obtain ⟨hc, hcs⟩ := not_or.mp (mt List.mem_cons.mpr h)
      rw [Text.split, if_neg (Ne.symm hc), ih hcs]

theorem splitUser_of_notMem (h : '@' ∉ cs) : splitUser cs = (none, cs) := by
  rw [splitUser, split_of_notMem h]
  rfl

theorem classes_of_not_mem_marks (h : c ∉ marks) : (c != '\t' && c != '\n' && c != '\r') = true ∧
    (c == '/' || c == '\\') = false ∧ endsAuthority c = false := by
  simp only [marks, List.mem_cons, List.not_mem_nil, or_false, not_or] at h
  simp [endsAuthority, h]

/-- An authority that is read without a user, in front of a single slash. -/
theorem parse_authority {authority : List Char} (hne : authority ≠ []) (hmarks : ∀ c ∈ authority, c ∉ marks) :
    parse ('/' :: '/' :: (authority ++ ['/'])) = (do
      let host ← Host.parse (splitHost false authority).1
      let port ← parsePort (splitHost false authority).2
      return ⟨[], host, port, ['/'], [], []⟩) := by
  have hfilter : ('/' :: '/' :: (authority ++ ['/'])).filter (fun c => c != '\t' && c != '\n' && c != '\r') =
      '/' :: '/' :: (authority ++ ['/']) := by
    rw [List.filter_cons_of_pos (by decide), List.filter_cons_of_pos (by decide), List.filter_append,
      List.filter_eq_self.mpr fun c hc => (classes_of_not_mem_marks (hmarks c hc)).1]
    rfl
  have hdrop : ('/' :: '/' :: (authority ++ ['/'])).dropWhile (fun c => c == '/' || c == '\\') =
      authority ++ ['/'] := by
    obtain ⟨c, cs, rfl⟩ := List.exists_cons_of_ne_nil hne
    obtain ⟨-, hslash, -⟩ := classes_of_not_mem_marks (hmarks c (List.mem_cons_self ..))
    rw [List.dropWhile_cons_of_pos (by decide), List.dropWhile_cons_of_pos (by decide), List.cons_append,
      List.dropWhile_cons_of_neg (by rw [hslash]; decide)]
  have hauthority : ∀ c ∈ authority, (!endsAuthority c) = true := fun c hc => by
    rw [(classes_of_not_mem_marks (hmarks c hc)).2.2]
    rfl
  have huser := splitUser_of_notMem fun hmem => hmarks '@' hmem (by decide)
  rw [parse]
  dsimp only
  rw [hfilter, hdrop, List.takeWhile_append_of_pos hauthority, List.dropWhile_append_of_pos hauthority]
  rw [show ['/'].takeWhile (!endsAuthority ·) = [] from rfl, List.append_nil, huser]
  rfl

end Url

/-! ### Endpoints -/

/-- A host as it is written into a location. -/
def Host.written (host : List Char) : List Char :=
  if host.contains ':' && host.head? != some '[' then '[' :: (host ++ [']']) else host

/-- A host without brackets at its ends. -/
def Host.bare (host : List Char) : List Char := Text.dropEndWhile (· == ']') (host.dropWhile (· == '['))

theorem dropWhile_of_notMem {x : Char} (h : x ∉ cs) : cs.dropWhile (· == x) = cs := by
  cases cs with
  | nil => rfl
  | cons c cs =>
      have hc : c ≠ x := fun hc => h (hc ▸ List.mem_cons_self ..)
      exact List.dropWhile_cons_of_neg (by simpa using hc)

theorem Host.bare_of_notMem (hopen : '[' ∉ host) (hclose : ']' ∉ host) : bare host = host := by
  rw [bare, dropWhile_of_notMem hopen, Text.dropEndWhile, dropWhile_of_notMem (mt List.mem_reverse.mp hclose),
    List.reverse_reverse]

theorem Host.bare_bracket (hopen : '[' ∉ host) (hclose : ']' ∉ host) : bare ('[' :: (host ++ [']'])) = host := by
  have hinner : '[' ∉ host ++ [']'] := by simpa using hopen
  rw [bare, List.dropWhile_cons_of_pos (by decide), dropWhile_of_notMem hinner, Text.dropEndWhile,
    List.reverse_append, List.reverse_singleton, List.singleton_append, List.dropWhile_cons_of_pos (by decide),
    dropWhile_of_notMem (mt List.mem_reverse.mp hclose), List.reverse_reverse]

theorem Address.no_brackets {address : List Char} {groups : List Nat} (h : ipv6? address = some groups) :
    '[' ∉ address ∧ ']' ∉ address :=
  ⟨fun hc => (chars_of_ipv6? h hc).not_mem_marks (by decide),
    fun hc => (chars_of_ipv6? h hc).not_mem_marks (by decide)⟩

/-- A host that has a normal form as it is written has the same one without brackets. -/
theorem Host.parse_bare (h : parse (written host) = .ok u) : parse (bracketed (bare host)) = .ok u := by
  by_cases hwrap : (host.contains ':' && host.head? != some '[') = true
  · rw [written, if_pos hwrap] at h
    obtain ⟨address, groups, haddress, hgroups⟩ := exists_of_parse_bracket h
    obtain rfl := List.append_cancel_right haddress
    obtain ⟨hopen, hclose⟩ := Address.no_brackets hgroups
    rwa [bare_of_notMem hopen hclose, bracketed, if_pos (Address.colon_of_ipv6? hgroups)]
  · rw [written, if_neg hwrap] at h
    cases host with
    | nil => cases h
    | cons c cs =>
        by_cases hc : c = '['
        · subst hc
          obtain ⟨address, groups, rfl, hgroups⟩ := exists_of_parse_bracket h
          obtain ⟨hopen, hclose⟩ := Address.no_brackets hgroups
          rwa [bare_bracket hopen hclose, bracketed, if_pos (Address.colon_of_ipv6? hgroups)]
        · have hcolon : ':' ∉ c :: cs := by simpa [hc] using hwrap
          have hname := h
          rw [parse_of_ne_bracket hc] at hname
          have hopen : '[' ∉ c :: cs := fun hmem => not_isForbidden_of_ofName hname hmem (by decide) (by decide)
          have hclose : ']' ∉ c :: cs := fun hmem => not_isForbidden_of_ofName hname hmem (by decide) (by decide)
          rwa [bare_of_notMem hopen hclose, bracketed, if_neg hcolon]

theorem Host.not_ok_of_port (hclose : ']' ∉ ds) : parse (cs ++ ':' :: ds) ≠ .ok u := by
  intro h
  obtain ⟨c, rest, hrest⟩ :=
    List.exists_cons_of_ne_nil (List.append_ne_nil_of_right_ne_nil cs (List.cons_ne_nil ':' ds))
  rw [hrest] at h
  by_cases hc : c = '['
  · subst hc
    obtain ⟨address, groups, rfl, -⟩ := exists_of_parse_bracket h
    have hlast := congrArg List.getLast? hrest
    rw [List.getLast?_append_of_ne_nil _ (List.cons_ne_nil _ _), ← List.cons_append, List.getLast?_concat] at hlast
    rcases List.mem_cons.mp (List.mem_of_getLast? hlast) with hcolon | hmem
    · cases hcolon
    · exact hclose hmem
  · rw [parse_of_ne_bracket hc] at h
    have hcolon : ':' ∈ c :: rest := hrest ▸ List.mem_append_right cs (List.mem_cons_self ..)
    exact not_isForbidden_of_ofName h hcolon (by decide) (by decide)

/-- Host and port of a location are read apart where they were put together. -/
theorem Url.splitHost_authority {port : Option Nat} (hcolon : ':' ∉ ds) (hclose : ']' ∉ ds)
    (hhost : Host.parse (splitHost false (cs ++ ':' :: ds)).1 = .ok u)
    (hport : parsePort (splitHost false (cs ++ ':' :: ds)).2 = .ok port) :
    splitHost false (cs ++ ':' :: ds) = (cs, ':' :: ds) := by
  have happend := splitHost_append false (cs ++ ':' :: ds)
  rcases splitHost_snd false (cs ++ ':' :: ds) with hnil | ⟨rest, hrest⟩
  · rw [hnil, List.append_nil] at happend
    rw [happend] at hhost
    exact absurd hhost (Host.not_ok_of_port hclose)
  · rw [hrest] at happend hport
    obtain ⟨hfront, hback⟩ := append_cons_inj_last (not_mem_of_parsePort hport) hcolon happend
    exact Prod.ext hfront (by rw [hrest, hback])

namespace Endpoint

/-- A location that designates an endpoint: it has its port and the normal form of the host that is dialed, and
nothing else. -/
structure Designates (e : Endpoint) (url : Url) : Prop where
  port : e.portNumber = .ok (url.port.getD Url.defaultPort)
  host : Host.parse (Host.bracketed e.dialHost.toList) = .ok url.host
  path : url.path = ['/']
  userinfo : url.userinfo = []
  query : url.query = []
  fragment : url.fragment = []

theorem dialHost_eq (e : Endpoint) : e.dialHost.toList = Host.bare (Text.trim e.host.toList) := String.toList_ofList

theorem exists_of_location (h : e.location = .ok url) : Text.trim e.host.toList ≠ [] ∧
    ∃ port, e.portNumber = .ok port ∧ Url.parse (locationChars (Text.trim e.host.toList) port) = .ok url := by
  rw [location] at h
  by_cases hempty : (Text.trim e.host.toList).isEmpty = true
  · simp only [hempty, if_true] at h
    cases h
  · simp only [hempty] at h
    obtain ⟨port, hport, h⟩ := bind_eq_ok_iff.mp h
    cases hurl : Url.parse (locationChars (Text.trim e.host.toList) port) with
    | error error =>
        rw [hurl] at h
        cases h
    | ok url' =>
        rw [hurl] at h
        cases h
        exact ⟨by simpa using hempty, port, hport, hurl⟩

theorem lt_of_portNumber {port : Nat} (h : e.portNumber = .ok port) : port < 65536 := by
  have hnatural : Digits.natural? 65536 (Text.trim e.port.toList) = some port := by
    rw [portNumber] at h
    split at h
    · cases h
    · cases h
    · rename_i hn
      rw [hn, Except.ok.inj h]
  simp only [Digits.natural?, Option.bind_eq_bind, Option.bind_eq_some_iff] at hnatural
  obtain ⟨n, -, hn⟩ := hnatural
  by_cases hlt : n < 65536
  · rw [if_pos hlt] at hn
    exact Option.some.inj hn ▸ hlt
  · rw [if_neg hlt] at hn
    cases hn

end Endpoint

theorem mem_dropWhile_of_ne {x : Char} (h : c ∈ cs) (hne : c ≠ x) : c ∈ cs.dropWhile (· == x) := by
  rw [← List.takeWhile_append_dropWhile (p := (· == x)) (l := cs), List.mem_append] at h
  rcases h with h | h
  · have hall := List.all_eq_true.mp List.all_takeWhile c h
    exact absurd (beq_iff_eq.mp hall) hne
  · exact h

theorem Host.mem_bare (h : c ∈ host) (hopen : c ≠ '[') (hclose : c ≠ ']') : c ∈ bare host :=
  List.mem_reverse.mpr (mem_dropWhile_of_ne (List.mem_reverse.mpr (mem_dropWhile_of_ne h hopen)) hclose)

theorem Host.mem_bracketed (h : c ∈ host) : c ∈ bracketed host := by
  rw [bracketed]
  split
  · exact List.mem_cons_of_mem _ (List.mem_append_left _ h)
  · exact h

theorem Host.mem_written (h : c ∈ written host) : c = '[' ∨ c = ']' ∨ c ∈ host := by
  rw [written] at h
  split at h
  · rcases List.mem_cons.mp h with h | h
    · exact .inl h
    rcases List.mem_append.mp h with h | h
    · exact .inr (.inr h)
    · exact .inr (.inl (List.mem_singleton.mp h))
  · exact .inr (.inr h)

theorem digit_plain {port : Nat} (h : c ∈ Nat.toDigits 10 port) : c ∉ ':' :: ']' :: Url.marks := by
  have hdigit := Nat.isDigit_of_mem_toDigits (by decide) (by decide) h
  intro hc
  have hmarks : ∀ c ∈ ':' :: ']' :: Url.marks, c.isDigit = false := List.all_iff_forall_prop.mp (by decide)
  rw [hmarks c hc] at hdigit
  cases hdigit

namespace Endpoint

/-- The location of an endpoint designates it exactly if its host holds no character with a meaning elsewhere in a
location. -/
theorem designates_iff (h : e.location = .ok url) :
    e.Designates url ↔ ∀ c ∈ Text.trim e.host.toList, c ∉ Url.marks := by
  obtain ⟨hne, port, hport, hurl⟩ := exists_of_location h
  generalize hhost : Text.trim e.host.toList = host at hne hurl
  constructor
  · intro hdesignates c hc hmark
    have hbrackets : c ≠ '[' ∧ c ≠ ']' := by
      have hmarks : ∀ c ∈ Url.marks, c ≠ '[' ∧ c ≠ ']' := List.all_iff_forall_prop.mp (by decide)
      exact hmarks c hmark
    have hdial : c ∈ e.dialHost.toList := by
      rw [dialHost_eq, hhost]
      exact Host.mem_bare hc hbrackets.1 hbrackets.2
    exact Host.not_mem_marks_of_parse hdesignates.host (Host.mem_bracketed hdial) hmark
  · intro hmarks
    have hchars : ∀ c ∈ Host.written host ++ ':' :: Nat.toDigits 10 port, c ∉ Url.marks := by
      intro c hc hmark
      rcases List.mem_append.mp hc with hc | hc
      · rcases Host.mem_written hc with rfl | rfl | hc
        · exact absurd hmark (by decide)
        · exact absurd hmark (by decide)
        · exact hmarks c hc hmark
      rcases List.mem_cons.mp hc with rfl | hc
      · exact absurd hmark (by decide)
      · exact digit_plain hc (List.mem_cons_of_mem _ (List.mem_cons_of_mem _ hmark))
    have htext : locationChars host port =
        '/' :: '/' :: ((Host.written host ++ ':' :: Nat.toDigits 10 port) ++ ['/']) := by
      rw [locationChars, Host.written]
      simp
    rw [htext, Url.parse_authority (by simp) hchars] at hurl
    obtain ⟨u, hu, hurl⟩ := bind_eq_ok_iff.mp hurl
    obtain ⟨number, hnumber, hurl⟩ := bind_eq_ok_iff.mp hurl
    cases hurl
    have hsplit := Url.splitHost_authority (fun hc => digit_plain hc (List.mem_cons_self ..))
      (fun hc => digit_plain hc (List.mem_cons_of_mem _ (List.mem_cons_self ..))) hu hnumber
    rw [hsplit] at hu hnumber
    rw [Url.parsePort_toDigits (lt_of_portNumber hport)] at hnumber
    cases hnumber
    refine ⟨?_, ?_, rfl, rfl, rfl, rfl⟩
    · rw [hport]
      by_cases hdefault : port = Url.defaultPort
      · rw [if_pos hdefault, hdefault]
        rfl
      · rw [if_neg hdefault]
        rfl
    · rw [dialHost_eq, hhost]
      exact Host.parse_bare hu

/-- An address of version 6 without brackets. -/
theorem designates_loopback : ∃ url, location ⟨"::1", "8080"⟩ = .ok url ∧ Designates ⟨"::1", "8080"⟩ url := by
  have hlocation : ((location ⟨"::1", "8080"⟩).toOption.map fun _ => ()) = some () := by decide +kernel
  obtain ⟨url, hurl, -⟩ := exists_ok_of_toOption_map hlocation
  exact ⟨url, hurl, (designates_iff hurl).mpr (List.all_iff_forall_prop.mp (by decide +kernel))⟩

/-- A host that holds a slash is accepted: its end and the port become a path. -/
theorem path_in_host : ∃ url, location ⟨"a/b", "8080"⟩ = .ok url ∧ url.path = "/b:8080/".toList ∧ url.port = none ∧
    ¬ Designates ⟨"a/b", "8080"⟩ url := by
  have hlocation : ((location ⟨"a/b", "8080"⟩).toOption.map fun url => (url.path, url.port)) =
      some ("/b:8080/".toList, none) := by decide +kernel
  obtain ⟨url, hurl, hparts⟩ := exists_ok_of_toOption_map hlocation
  obtain ⟨hpath, hport⟩ := Prod.mk.inj hparts
  refine ⟨url, hurl, hpath, hport, fun hdesignates => ?_⟩
  have hslash := hpath.symm.trans hdesignates.path
  exact absurd hslash (by decide)

end Endpoint

end StateHistory
