import Mathlib.Algebra.Order.Group.Int
import Mathlib.Algebra.Order.Monoid.Prod
import Colama.Qemu.Json.RoundTrip

namespace Colama.Qemu.Json

variable {F : Type}

/-- `empty`: a token is taken from an empty list, or looked at there. `fuel`: the recursion has not come to its end. -/
inductive ParserFault
  | empty
  | fuel

/-- What is parsed, with the tokens that are left and the number of arguments that have been taken. -/
abbrev Parsed (α : Type) := Except ParserFault (Option (α × List Kind × ℕ))

/-- The escapes of `parse_escape`. -/
def escapeTexts : List (List Byte) := ["%p", "%i", "%d", "%ld", "%lld", "%I64d", "%s", "%f"].map text

/-- What `va_arg` gives for each escape, by the number of arguments that have been taken before. -/
abbrev VaList (F : Type) := ℕ → List Byte → QObject F

def parseEscape (ap : Option (VaList F)) (taken : ℕ) : List Kind → Option (QObject F × List Kind × ℕ)
  | [] => none
  | token :: working =>
    ap.bind fun args =>
      if token.1 = .escape ∧ cString token.2 ∈ escapeTexts then some (args taken (cString token.2), working, taken + 1)
      else none

/-- The rules that look at one token alone. -/
def parseToken (strtod : List Byte → F) (ap : Option (VaList F)) (taken : ℕ) (tokens : List Kind) :
    Option (QObject F × List Kind × ℕ) :=
  match parseEscape ap taken tokens with
  | some r => some r
  | none => (parseKeyword tokens <|> parseLiteral strtod tokens).map fun r : QObject F × List Kind => (r.1, r.2, taken)

variable (strtod : List Byte → F) (ap : Option (VaList F))

mutual

/-- The parser, with the tokens that it takes from lists that may be empty. A rule that fails may have taken arguments,
but then the rules after it fail as well. -/
@[grind] def takeValue : ℕ → ℕ → List Kind → Parsed (QObject F)
  | _, _, [] => .error .empty
  | 0, _, _ => .error .fuel
  | n + 1, taken, token :: working =>
    match takeObject n taken (token :: working) with
    | .error fault => .error fault
    | .ok (some (dict, rest)) => .ok (some (.dict dict, rest))
    | .ok none =>
      match takeArray n taken (token :: working) with
      | .error fault => .error fault
      | .ok (some (list, rest)) => .ok (some (.list list, rest))
      | .ok none => .ok (parseToken strtod ap taken (token :: working))

def takePair : ℕ → QDict F → ℕ → List Kind → Parsed (QDict F)
  | _, _, _, [] => .error .empty
  | 0, _, _, _ => .error .fuel
  | n + 1, dict, taken, token :: working =>
    match takeValue n taken (token :: working) with
    | .error fault => .error fault
    | .ok (some (.string _, [], _)) => .error .empty
    | .ok (some (.string key, colon :: working, taken)) =>
      if isOperator colon ':' then
        match takeValue n taken working with
        | .error fault => .error fault
        | .ok (some (value, rest)) => .ok (some (dict.put key value, rest))
        | .ok none => .ok none
      else .ok none
    | .ok _ => .ok none

@[grind] def takePairs : ℕ → QDict F → ℕ → List Kind → Parsed (QDict F)
  | _, _, _, [] => .error .empty
  | 0, _, _, _ => .error .fuel
  | n + 1, dict, taken, token :: working =>
    if isOperator token '}' then .ok (some (dict, working, taken))
    else if isOperator token ',' then
      match takePair n dict taken working with
      | .error fault => .error fault
      | .ok (some (dict, working, taken)) => takePairs n dict taken working
      | .ok none => .ok none
    else .ok none

def takeObject : ℕ → ℕ → List Kind → Parsed (QDict F)
  | _, _, [] => .error .empty
  | 0, _, _ => .error .fuel
  | n + 1, taken, token :: working =>
    if isOperator token '{' then
      match working with
      | [] => .error .empty
      | peek :: working =>
        if isOperator peek '}' then .ok (some (.nil, working, taken))
        else
          match takePair n .nil taken (peek :: working) with
          | .error fault => .error fault
          | .ok (some (dict, working, taken)) => takePairs n dict taken working
          | .ok none => .ok none
    else .ok none

@[grind] def takeItems : ℕ → QList F → ℕ → List Kind → Parsed (QList F)
  | _, _, _, [] => .error .empty
  | 0, _, _, _ => .error .fuel
  | n + 1, list, taken, token :: working =>
    if isOperator token ']' then .ok (some (list, working, taken))
    else if isOperator token ',' then
      match takeValue n taken working with
      | .error fault => .error fault
      | .ok (some (obj, working, taken)) => takeItems n (list.append obj) taken working
      | .ok none => .ok none
    else .ok none

def takeArray : ℕ → ℕ → List Kind → Parsed (QList F)
  | _, _, [] => .error .empty
  | 0, _, _ => .error .fuel
  | n + 1, taken, token :: working =>
    if isOperator token '[' then
      match working with
      | [] => .error .empty
      | peek :: working =>
        if isOperator peek ']' then .ok (some (.nil, working, taken))
        else
          match takeValue n taken (peek :: working) with
          | .error fault => .error fault
          | .ok (some (obj, working, taken)) => takeItems n (.cons obj .nil) taken working
          | .ok none => .ok none
    else .ok none

end

/-- `json_parser_parse`, with the faults. -/
def takeAll (tokens : List Token) : Except ParserFault (Option (QObject F)) :=
  (takeValue strtod ap (3 * tokens.length) 0 (tokens.map Token.kind)).map fun r => r.map Prod.fst

/-- What tokens add to the counts. -/
def depths (ts : List Kind) : ℤ × ℤ := (ts.map depth).sum

theorem depths_cons (k : Kind) (ts : List Kind) : depths (k :: ts) = depth k + depths ts := List.sum_cons

theorem depths_append (ts ts' : List Kind) : depths (ts ++ ts') = depths ts + depths ts' := by
  rw [depths, List.map_append, List.sum_append]
  rfl

/-- What a rule does with tokens: what it takes changes the counts by that much, and if it runs out of tokens then
nothing is closed that has not been opened. -/
structure Takes {α : Type} (change : ℤ × ℤ) (ts : List Kind) (out : Parsed α) : Prop where
  fuel : out ≠ .error .fuel
  rest : ∀ a rest taken, out = .ok (some (a, rest, taken)) →
    depths ts = depths rest + change ∧ rest.length < ts.length
  empty : out = .error .empty → 0 ≤ depths ts

/-- A rule does not run out of tokens before something is open. -/
def Opens {α : Type} (ts : List Kind) (out : Parsed α) : Prop := out = .error .empty → ts = [] ∨ depths ts ≠ 0

section

variable {α β : Type} {change : ℤ × ℤ} {ts rest : List Kind} {k : Kind} {out : Parsed α}

theorem Takes.nil : Takes change [] (.error .empty : Parsed α) := ⟨nofun, nofun, fun _ => le_refl 0⟩

theorem Takes.none : Takes change ts (.ok none : Parsed α) := ⟨nofun, nofun, nofun⟩

theorem Takes.some (a : α) (taken : ℕ) (h : depths ts = depths rest + change) (hlen : rest.length < ts.length) :
    Takes change ts (.ok (some (a, rest, taken))) :=
  ⟨nofun, fun _ _ _ heq => by cases heq; exact ⟨h, hlen⟩, nofun⟩

theorem Takes.error {fault : ParserFault} {change' : ℤ × ℤ} (h : Takes change ts (.error fault : Parsed α)) :
    Takes change' ts (.error fault : Parsed β) :=
  ⟨fun heq => h.fuel (by cases heq; rfl), nofun, fun heq => h.empty (by cases heq; rfl)⟩

/-- After a token that closes nothing. -/
theorem Takes.cons (h : Takes change ts out) (hdepth : 0 ≤ depth k) : Takes (depth k + change) (k :: ts) out := by
  refine ⟨h.fuel, fun a rest taken heq => ?_, fun heq => ?_⟩
  · obtain ⟨hdepths, hlen⟩ := h.rest a rest taken heq
    rw [depths_cons, hdepths]
    exact ⟨add_left_comm _ _ _, hlen.trans (Nat.lt_succ_self _)⟩
  · rw [depths_cons]
    exact add_nonneg hdepth (h.empty heq)

/-- After a rule that has taken what is balanced. -/
theorem Takes.trans (h : Takes change rest out) (hrest : depths ts = depths rest ∧ rest.length < ts.length) :
    Takes change ts out := by
  refine ⟨h.fuel, fun a rest' taken heq => ?_, fun heq => hrest.1 ▸ h.empty heq⟩
  obtain ⟨hdepths, hlen⟩ := h.rest a rest' taken heq
  exact ⟨hrest.1.trans hdepths, hlen.trans hrest.2⟩

theorem isOperator_depth {op : Char} (h : isOperator k op = true) : depth k = depth (.operator, [chr op]) := by
  obtain ⟨ty, u⟩ := k
  rw [isOperator, Bool.and_eq_true, beq_iff_eq, beq_iff_eq] at h
  obtain ⟨hty, hu⟩ := h
  rw [show ty = .operator from hty, show u = [chr op] from hu]

/-- After the token that opens what a rule is about. -/
theorem Takes.opens (h : Takes change ts out) (hdepth : 0 ≤ depth k) (hne : depth k ≠ 0) : Opens (k :: ts) out := by
  intro heq
  refine .inr fun hzero => ?_
  rw [depths_cons] at hzero
  exact hne ((add_eq_zero_iff_of_nonneg hdepth (h.empty heq)).mp hzero).1

end

section

variable {token : Kind} {working : List Kind} {r : QObject F × List Kind}

theorem parseKeyword_some (h : parseKeyword (token :: working) = some r) : token.1 ≠ .operator ∧ r.2 = working := by
  have hkeyword : ∀ value, isKeyword token value = true → token.1 ≠ .operator := by
    intro value hvalue
    rw [isKeyword, Bool.and_eq_true, beq_iff_eq] at hvalue
    rw [hvalue.1]
    decide
  rw [parseKeyword] at h
  split at h
  · next htrue =>
    cases h
    exact ⟨hkeyword _ htrue, rfl⟩
  · split at h
    · next hfalse =>
      cases h
      exact ⟨hkeyword _ hfalse, rfl⟩
    · cases h

theorem parseLiteral_some (h : parseLiteral strtod (token :: working) = some r) :
    token.1 ≠ .operator ∧ r.2 = working := by
  rw [parseLiteral] at h
  split at h
  · next htype =>
    obtain ⟨s, -, rfl⟩ := Option.map_eq_some_iff.mp h
    exact ⟨by rw [htype]; decide, rfl⟩
  · next htype =>
    cases h
    exact ⟨by rw [htype]; decide, rfl⟩
  · next htype =>
    cases h
    exact ⟨by rw [htype]; decide, rfl⟩
  · cases h

theorem parseEscape_some {taken : ℕ} {r : QObject F × List Kind × ℕ}
    (h : parseEscape ap taken (token :: working) = some r) : token.1 ≠ .operator ∧ r.2.1 = working := by
  obtain ⟨args, -, hr⟩ := Option.bind_eq_some_iff.mp h
  split at hr
  · next htype =>
    cases hr
    exact ⟨by rw [htype.1]; decide, rfl⟩
  · cases hr

/-- One token is taken, which opens and closes nothing. -/
theorem parseToken_takes (taken : ℕ) (token : Kind) (working : List Kind) :
    Takes 0 (token :: working) (.ok (parseToken strtod ap taken (token :: working))) := by
  have hone : ∀ r, parseToken strtod ap taken (token :: working) = some r → token.1 ≠ .operator ∧ r.2.1 = working := by
    intro r hr
    rw [parseToken] at hr
    split at hr
    · next hescape =>
      cases hr
      exact parseEscape_some ap hescape
    · obtain ⟨r', hr', rfl⟩ := Option.map_eq_some_iff.mp hr
      cases hkeyword : (parseKeyword (token :: working) : Option (QObject F × List Kind)) with
      | some r =>
        rw [hkeyword] at hr'
        cases hr'
        exact parseKeyword_some hkeyword
      | none =>
        rw [hkeyword] at hr'
        exact parseLiteral_some strtod hr'
  refine ⟨nofun, fun a rest taken' heq => ?_, nofun⟩
  obtain ⟨htype, hrest⟩ := hone _ (Except.ok.inj heq)
  rw [depths_cons, depth, if_pos htype, show working = rest from hrest.symm]
  exact ⟨by rw [add_comm]; rfl, Nat.lt_succ_self _⟩

end

/-- What each rule does with tokens for which there is enough fuel. -/
structure RulesTake (n : ℕ) : Prop where
  value : ∀ taken ts, 3 * ts.length ≤ n →
    Takes 0 ts (takeValue strtod ap n taken ts) ∧ Opens ts (takeValue strtod ap n taken ts)
  pair : ∀ dict taken ts, 3 * ts.length + 1 ≤ n → Takes 0 ts (takePair strtod ap n dict taken ts)
  pairs : ∀ dict taken ts, 3 * ts.length ≤ n + 1 → Takes (-1, 0) ts (takePairs strtod ap n dict taken ts)
  object : ∀ taken ts, 3 * ts.length ≤ n + 1 →
    Takes 0 ts (takeObject strtod ap n taken ts) ∧ Opens ts (takeObject strtod ap n taken ts)
  items : ∀ list taken ts, 3 * ts.length ≤ n + 1 → Takes (0, -1) ts (takeItems strtod ap n list taken ts)
  array : ∀ taken ts, 3 * ts.length ≤ n + 1 →
    Takes 0 ts (takeArray strtod ap n taken ts) ∧ Opens ts (takeArray strtod ap n taken ts)

section

variable {strtod ap} {n : ℕ}

theorem takeValue_takes (h : RulesTake strtod ap n) (taken : ℕ) (token : Kind) (working : List Kind)
    (hn : 3 * (token :: working).length ≤ n + 1) :
    Takes 0 (token :: working) (takeValue strtod ap (n + 1) taken (token :: working)) ∧
      Opens (token :: working) (takeValue strtod ap (n + 1) taken (token :: working)) := by
  obtain ⟨hobject, hopensObject⟩ := h.object taken (token :: working) hn
  obtain ⟨harray, hopensArray⟩ := h.array taken (token :: working) hn
  rw [takeValue]
  split
  · next heq =>
    rw [heq] at hobject hopensObject
    exact ⟨hobject.error, fun hempty => hopensObject (by cases hempty; rfl)⟩
  · next dict rest heq =>
    obtain ⟨hdepths, hlen⟩ := hobject.rest dict rest.1 rest.2 heq
    exact ⟨Takes.some _ _ hdepths hlen, nofun⟩
  · split
    · next heq =>
      rw [heq] at harray hopensArray
      exact ⟨harray.error, fun hempty => hopensArray (by cases hempty; rfl)⟩
    · next list rest heq =>
      obtain ⟨hdepths, hlen⟩ := harray.rest list rest.1 rest.2 heq
      exact ⟨Takes.some _ _ hdepths hlen, nofun⟩
    · exact ⟨parseToken_takes strtod ap taken token working, nofun⟩

theorem takePair_takes (h : RulesTake strtod ap n) (dict : QDict F) (taken : ℕ) (token : Kind) (working : List Kind)
    (hn : 3 * (token :: working).length + 1 ≤ n + 1) :
    Takes 0 (token :: working) (takePair strtod ap (n + 1) dict taken (token :: working)) := by
  obtain ⟨hvalue, -⟩ := h.value taken (token :: working) (by omega)
  rw [takePair]
  split
  · next heq =>
    rw [heq] at hvalue
    exact hvalue.error
  · next key taken' heq =>
    obtain ⟨hdepths, hlen⟩ := hvalue.rest _ _ _ heq
    exact Takes.nil.trans ⟨by simpa using hdepths, hlen⟩
  · next key colon rest taken' heq =>
    obtain ⟨hdepths, hlen⟩ := hvalue.rest _ _ _ heq
    rw [add_zero] at hdepths
    split
    · next hcolon =>
      have hflat : depth colon = 0 := (isOperator_depth hcolon).trans (by decide)
      obtain ⟨hlast, -⟩ := h.value taken' rest (by simp only [List.length_cons] at hn hlen; omega)
      split
      · next heq' =>
        rw [heq'] at hlast
        have hcons := (Takes.cons hlast.error (by rw [hflat]) : Takes (depth colon + 0) (colon :: rest) (.error _ : Parsed (QDict F)))
        rw [hflat, add_zero] at hcons
        exact hcons.trans ⟨hdepths, hlen⟩
      · next value rest' heq' =>
        obtain ⟨hdepths', hlen'⟩ := hlast.rest _ _ _ heq'
        refine Takes.some _ _ ?_ ?_
        · rw [hdepths, depths_cons, hflat, zero_add, hdepths']
        · exact (hlen'.trans (Nat.lt_succ_self _)).trans hlen
      · exact Takes.none
    · exact Takes.none
  · exact Takes.none

theorem takePairs_takes (h : RulesTake strtod ap n) (dict : QDict F) (taken : ℕ) (token : Kind) (working : List Kind)
    (hn : 3 * (token :: working).length ≤ n + 2) :
    Takes (-1, 0) (token :: working) (takePairs strtod ap (n + 1) dict taken (token :: working)) := by
  rw [List.length_cons] at hn
  rw [takePairs]
  split
  · next hclose =>
    have hdepth : depth token = (-1, 0) := (isOperator_depth hclose).trans (by decide)
    exact Takes.some _ _ (by rw [depths_cons, hdepth, add_comm]) (Nat.lt_succ_self _)
  · split
    · next hcomma =>
      have hflat : depth token = 0 := (isOperator_depth hcomma).trans (by decide)
      have hpair := h.pair dict taken working (by omega)
      split
      · next heq =>
        rw [heq] at hpair
        have hcons := (Takes.cons hpair.error (by rw [hflat]) :
          Takes (depth token + (-1, 0)) (token :: working) (.error _ : Parsed (QDict F)))
        rwa [hflat, zero_add] at hcons
      · next dict' rest taken' heq =>
        obtain ⟨hdepths, hlen⟩ := hpair.rest _ _ _ heq
        refine (h.pairs dict' taken' rest (by omega)).trans ⟨?_, hlen.trans (Nat.lt_succ_self _)⟩
        rw [depths_cons, hflat, zero_add, hdepths, add_zero]
      · exact Takes.none
    · exact Takes.none

theorem takeItems_takes (h : RulesTake strtod ap n) (list : QList F) (taken : ℕ) (token : Kind) (working : List Kind)
    (hn : 3 * (token :: working).length ≤ n + 2) :
    Takes (0, -1) (token :: working) (takeItems strtod ap (n + 1) list taken (token :: working)) := by
  rw [List.length_cons] at hn
  rw [takeItems]
  split
  · next hclose =>
    have hdepth : depth token = (0, -1) := (isOperator_depth hclose).trans (by decide)
    exact Takes.some _ _ (by rw [depths_cons, hdepth, add_comm]) (Nat.lt_succ_self _)
  · split
    · next hcomma =>
      have hflat : depth token = 0 := (isOperator_depth hcomma).trans (by decide)
      obtain ⟨hvalue, -⟩ := h.value taken working (by omega)
      split
      · next heq =>
        rw [heq] at hvalue
        have hcons := (Takes.cons hvalue.error (by rw [hflat]) :
          Takes (depth token + (0, -1)) (token :: working) (.error _ : Parsed (QList F)))
        rwa [hflat, zero_add] at hcons
      · next obj rest taken' heq =>
        obtain ⟨hdepths, hlen⟩ := hvalue.rest _ _ _ heq
        refine (h.items (list.append obj) taken' rest (by omega)).trans ⟨?_, hlen.trans (Nat.lt_succ_self _)⟩
        rw [depths_cons, hflat, zero_add, hdepths, add_zero]
      · exact Takes.none
    · exact Takes.none

theorem takeObject_takes (h : RulesTake strtod ap n) (taken : ℕ) (token : Kind) (working : List Kind)
    (hn : 3 * (token :: working).length ≤ n + 2) :
    Takes 0 (token :: working) (takeObject strtod ap (n + 1) taken (token :: working)) ∧
      Opens (token :: working) (takeObject strtod ap (n + 1) taken (token :: working)) := by
  rw [List.length_cons] at hn
  rw [takeObject.eq_def]
  dsimp only
  split
  · next hopen =>
    have hdepth : depth token = (1, 0) := (isOperator_depth hopen).trans (by decide)
    have hpos : 0 ≤ depth token := by rw [hdepth]; decide
    have hne : depth token ≠ 0 := by rw [hdepth]; decide
    have hinside : ∀ {out : Parsed (QDict F)}, Takes (-1, 0) working out →
        Takes 0 (token :: working) out ∧ Opens (token :: working) out := by
      intro out hout
      refine ⟨?_, hout.opens hpos hne⟩
      have hcons := hout.cons hpos
      rwa [hdepth] at hcons
    split
    · exact hinside Takes.nil
    · next peek working =>
      rw [List.length_cons] at hn
      split
      · next hclose =>
        have hflat : depth peek = (-1, 0) := (isOperator_depth hclose).trans (by decide)
        exact hinside (Takes.some _ _ (by rw [depths_cons, hflat, add_comm]) (Nat.lt_succ_self _))
      · have hpair := h.pair .nil taken (peek :: working) (by rw [List.length_cons]; omega)
        split
        · next heq =>
          rw [heq] at hpair
          exact hinside hpair.error
        · next dict rest taken' heq =>
          obtain ⟨hdepths, hlen⟩ := hpair.rest _ _ _ heq
          rw [List.length_cons] at hlen
          refine hinside ((h.pairs dict taken' rest (by omega)).trans ⟨by rw [hdepths, add_zero], hlen⟩)
        · exact ⟨Takes.none, nofun⟩
  · exact ⟨Takes.none, nofun⟩

theorem takeArray_takes (h : RulesTake strtod ap n) (taken : ℕ) (token : Kind) (working : List Kind)
    (hn : 3 * (token :: working).length ≤ n + 2) :
    Takes 0 (token :: working) (takeArray strtod ap (n + 1) taken (token :: working)) ∧
      Opens (token :: working) (takeArray strtod ap (n + 1) taken (token :: working)) := by
  rw [List.length_cons] at hn
  rw [takeArray.eq_def]
  dsimp only
  split
  · next hopen =>
    have hdepth : depth token = (0, 1) := (isOperator_depth hopen).trans (by decide)
    have hpos : 0 ≤ depth token := by rw [hdepth]; decide
    have hne : depth token ≠ 0 := by rw [hdepth]; decide
    have hinside : ∀ {out : Parsed (QList F)}, Takes (0, -1) working out →
        Takes 0 (token :: working) out ∧ Opens (token :: working) out := by
      intro out hout
      refine ⟨?_, hout.opens hpos hne⟩
      have hcons := hout.cons hpos
      rwa [hdepth] at hcons
    split
    · exact hinside Takes.nil
    · next peek working =>
      rw [List.length_cons] at hn
      split
      · next hclose =>
        have hflat : depth peek = (0, -1) := (isOperator_depth hclose).trans (by decide)
        exact hinside (Takes.some _ _ (by rw [depths_cons, hflat, add_comm]) (Nat.lt_succ_self _))
      · obtain ⟨hvalue, -⟩ := h.value taken (peek :: working) (by rw [List.length_cons]; omega)
        split
        · next heq =>
          rw [heq] at hvalue
          exact hinside hvalue.error
        · next obj rest taken' heq =>
          obtain ⟨hdepths, hlen⟩ := hvalue.rest _ _ _ heq
          rw [List.length_cons] at hlen
          refine hinside ((h.items _ taken' rest (by omega)).trans ⟨by rw [hdepths, add_zero], hlen⟩)
        · exact ⟨Takes.none, nofun⟩
  · exact ⟨Takes.none, nofun⟩

theorem rulesTake (n : ℕ) : RulesTake strtod ap n := by
  have hnil : ∀ {α : Type} {change : ℤ × ℤ}, Takes change [] (.error .empty : Parsed α) ∧
      Opens [] (.error .empty : Parsed α) := ⟨Takes.nil, fun _ => .inl rfl⟩
  have hlong : ∀ (token : Kind) (working : List Kind), ¬3 * (token :: working).length ≤ 1 := by
    intro token working
    rw [List.length_cons]
    omega
  induction n with
  | zero =>
    constructor
    · rintro taken (_ | ⟨token, working⟩) hn
      · rw [takeValue]; exact hnil
      · exact absurd (Nat.le_succ_of_le hn) (hlong token working)
    · rintro dict taken (_ | ⟨token, working⟩) hn
      · rw [takePair]; exact hnil.1
      · exact absurd hn (Nat.not_succ_le_zero _)
    · rintro dict taken (_ | ⟨token, working⟩) hn
      · rw [takePairs]; exact hnil.1
      · exact absurd hn (hlong token working)
    · rintro taken (_ | ⟨token, working⟩) hn
      · rw [takeObject]; exact hnil
      · exact absurd hn (hlong token working)
    · rintro list taken (_ | ⟨token, working⟩) hn
      · rw [takeItems]; exact hnil.1
      · exact absurd hn (hlong token working)
    · rintro taken (_ | ⟨token, working⟩) hn
      · rw [takeArray]; exact hnil
      · exact absurd hn (hlong token working)
  | succ n ih =>
    constructor
    · rintro taken (_ | ⟨token, working⟩) hn
      · rw [takeValue]; exact hnil
      · exact takeValue_takes ih taken token working hn
    · rintro dict taken (_ | ⟨token, working⟩) hn
      · rw [takePair]; exact hnil.1
      · exact takePair_takes ih dict taken token working hn
    · rintro dict taken (_ | ⟨token, working⟩) hn
      · rw [takePairs]; exact hnil.1
      · exact takePairs_takes ih dict taken token working hn
    · rintro taken (_ | ⟨token, working⟩) hn
      · rw [takeObject]; exact hnil
      · exact takeObject_takes ih taken token working hn
    · rintro list taken (_ | ⟨token, working⟩) hn
      · rw [takeItems]; exact hnil.1
      · exact takeItems_takes ih list taken token working hn
    · rintro taken (_ | ⟨token, working⟩) hn
      · rw [takeArray]; exact hnil
      · exact takeArray_takes ih taken token working hn

end

/-- Tokens that close all that they open are parsed without a fault. -/
theorem takeAll_ok {tokens : List Token} (hne : tokens ≠ []) (hdepths : depths (tokens.map Token.kind) = 0) :
    ∃ r, takeAll strtod ap tokens = .ok r := by
  have hrules : RulesTake strtod ap (3 * tokens.length) := rulesTake _
  obtain ⟨htakes, hopens⟩ := hrules.value 0 (tokens.map Token.kind) (by rw [List.length_map])
  rw [takeAll]
  cases hvalue : takeValue strtod ap (3 * tokens.length) 0 (tokens.map Token.kind) with
  | ok r => exact ⟨_, rfl⟩
  | error fault =>
    cases fault with
    | empty =>
      rcases hopens hvalue with hnil | hopen
      · exact absurd (List.map_eq_nil_iff.mp hnil) hne
      · exact absurd hdepths hopen
    | fuel => exact absurd hvalue htakes.fuel

/-- What is parsed, without the arguments. -/
def forget {α : Type} (r : Option (α × List Kind × ℕ)) : Option (α × List Kind) := r.map fun r => (r.1, r.2.1)

/-- Without arguments the rules are those of the parser, as long as there is no fault. -/
structure RulesParse (n : ℕ) : Prop where
  value : ∀ {taken ts r}, takeValue strtod none n taken ts = .ok r → parseValue strtod n ts = forget r
  pair : ∀ {dict taken ts r}, takePair strtod none n dict taken ts = .ok r → parsePair strtod n dict ts = forget r
  pairs : ∀ {dict taken ts r}, takePairs strtod none n dict taken ts = .ok r → parsePairs strtod n dict ts = forget r
  object : ∀ {taken ts r}, takeObject strtod none n taken ts = .ok r → parseObject strtod n ts = forget r
  items : ∀ {list taken ts r}, takeItems strtod none n list taken ts = .ok r → parseItems strtod n list ts = forget r
  array : ∀ {taken ts r}, takeArray strtod none n taken ts = .ok r → parseArray strtod n ts = forget r

section

variable {strtod} {n : ℕ}

theorem takeValue_parse (h : RulesParse strtod n) {taken : ℕ} {token : Kind} {working : List Kind}
    {r : Option (QObject F × List Kind × ℕ)} (heq : takeValue strtod none (n + 1) taken (token :: working) = .ok r) :
    parseValue strtod (n + 1) (token :: working) = forget r := by
  rw [takeValue] at heq
  rw [parseValue]
  split at heq
  · cases heq
  · next hobject =>
    cases heq
    rw [h.object hobject]
    rfl
  · next hobject =>
    rw [h.object hobject]
    split at heq
    · cases heq
    · next harray =>
      cases heq
      rw [h.array harray]
      rfl
    · next harray =>
      rw [h.array harray]
      cases heq
      show (parseKeyword (token :: working) <|> parseLiteral strtod (token :: working)) =
        forget ((parseKeyword (token :: working) <|> parseLiteral strtod (token :: working)).map
          fun r : QObject F × List Kind => (r.1, r.2, taken))
      cases parseKeyword (token :: working) <|> parseLiteral strtod (token :: working) <;> rfl

theorem takePair_parse (h : RulesParse strtod n) {dict : QDict F} {taken : ℕ} {token : Kind} {working : List Kind}
    {r : Option (QDict F × List Kind × ℕ)} (heq : takePair strtod none (n + 1) dict taken (token :: working) = .ok r) :
    parsePair strtod (n + 1) dict (token :: working) = forget r := by
  rw [takePair] at heq
  rw [parsePair]
  split at heq
  · cases heq
  · cases heq
  · next hkey =>
    rw [h.value hkey]
    simp only [forget, Option.map_some]
    split at heq
    · next hcolon =>
      rw [if_pos hcolon]
      split at heq
      · cases heq
      · next hvalue =>
        cases heq
        rw [h.value hvalue]
        rfl
      · next hvalue =>
        cases heq
        rw [h.value hvalue]
        rfl
    · next hcolon =>
      cases heq
      rw [if_neg hcolon]
      rfl
  · next value hempty hstring hvalue =>
    cases heq
    rw [h.value hvalue]
    rcases value with _ | ⟨key, rest, taken'⟩
    · rfl
    · cases key with
      | string key =>
        cases rest with
        | nil => exact absurd rfl (hempty key taken')
        | cons colon rest => exact absurd rfl (hstring key colon rest taken')
      | int value => rfl
      | bool value => rfl
      | float value => rfl
      | list items => rfl
      | dict entries => rfl

theorem takePairs_parse (h : RulesParse strtod n) {dict : QDict F} {taken : ℕ} {token : Kind} {working : List Kind}
    {r : Option (QDict F × List Kind × ℕ)} (heq : takePairs strtod none (n + 1) dict taken (token :: working) = .ok r) :
    parsePairs strtod (n + 1) dict (token :: working) = forget r := by
  rw [takePairs] at heq
  rw [parsePairs]
  split at heq
  · next hclose =>
    cases heq
    exact if_pos hclose
  · next hclose =>
    rw [if_neg hclose]
    split at heq
    · next hcomma =>
      rw [if_pos hcomma]
      split at heq
      · cases heq
      · next hpair =>
        rw [h.pair hpair]
        exact h.pairs heq
      · next hpair =>
        cases heq
        rw [h.pair hpair]
        rfl
    · next hcomma =>
      cases heq
      exact if_neg hcomma

theorem takeItems_parse (h : RulesParse strtod n) {list : QList F} {taken : ℕ} {token : Kind} {working : List Kind}
    {r : Option (QList F × List Kind × ℕ)} (heq : takeItems strtod none (n + 1) list taken (token :: working) = .ok r) :
    parseItems strtod (n + 1) list (token :: working) = forget r := by
  rw [takeItems] at heq
  rw [parseItems]
  split at heq
  · next hclose =>
    cases heq
    exact if_pos hclose
  · next hclose =>
    rw [if_neg hclose]
    split at heq
    · next hcomma =>
      rw [if_pos hcomma]
      split at heq
      · cases heq
      · next hvalue =>
        rw [h.value hvalue]
        exact h.items heq
      · next hvalue =>
        cases heq
        rw [h.value hvalue]
        rfl
    · next hcomma =>
      cases heq
      exact if_neg hcomma

theorem takeObject_parse (h : RulesParse strtod n) {taken : ℕ} {token : Kind} {working : List Kind}
    {r : Option (QDict F × List Kind × ℕ)} (heq : takeObject strtod none (n + 1) taken (token :: working) = .ok r) :
    parseObject strtod (n + 1) (token :: working) = forget r := by
  rw [takeObject.eq_def] at heq
  dsimp only at heq
  split at heq
  · next hopen =>
    split at heq
    · cases heq
    · next peek working =>
      rw [parseObject, if_pos hopen]
      split at heq
      · next hclose =>
        cases heq
        exact if_pos hclose
      · next hclose =>
        rw [if_neg hclose]
        split at heq
        · cases heq
        · next hpair =>
          rw [h.pair hpair]
          exact h.pairs heq
        · next hpair =>
          cases heq
          rw [h.pair hpair]
          rfl
  · next hopen =>
    cases heq
    exact parseObject_none strtod (Bool.eq_false_of_not_eq_true hopen) _ _

theorem takeArray_parse (h : RulesParse strtod n) {taken : ℕ} {token : Kind} {working : List Kind}
    {r : Option (QList F × List Kind × ℕ)} (heq : takeArray strtod none (n + 1) taken (token :: working) = .ok r) :
    parseArray strtod (n + 1) (token :: working) = forget r := by
  rw [takeArray.eq_def] at heq
  dsimp only at heq
  split at heq
  · next hopen =>
    split at heq
    · cases heq
    · next peek working =>
      rw [parseArray, if_pos hopen]
      split at heq
      · next hclose =>
        cases heq
        exact if_pos hclose
      · next hclose =>
        rw [if_neg hclose]
        split at heq
        · cases heq
        · next hvalue =>
          rw [h.value hvalue]
          exact h.items heq
        · next hvalue =>
          cases heq
          rw [h.value hvalue]
          rfl
  · next hopen =>
    cases heq
    exact parseArray_none strtod (Bool.eq_false_of_not_eq_true hopen) _ _

theorem rulesParse (n : ℕ) : RulesParse strtod n := by
  induction n with
  | zero =>
    constructor
    · rintro taken (_ | ⟨token, working⟩) r heq <;> simp [takeValue] at heq
    · rintro dict taken (_ | ⟨token, working⟩) r heq <;> simp [takePair] at heq
    · rintro dict taken (_ | ⟨token, working⟩) r heq <;> simp [takePairs] at heq
    · rintro taken (_ | ⟨token, working⟩) r heq <;> simp [takeObject] at heq
    · rintro list taken (_ | ⟨token, working⟩) r heq <;> simp [takeItems] at heq
    · rintro taken (_ | ⟨token, working⟩) r heq <;> simp [takeArray] at heq
  | succ n ih =>
    constructor
    · rintro taken (_ | ⟨token, working⟩) r heq
      · rw [takeValue] at heq; cases heq
      · exact takeValue_parse ih heq
    · rintro dict taken (_ | ⟨token, working⟩) r heq
      · rw [takePair] at heq; cases heq
      · exact takePair_parse ih heq
    · rintro dict taken (_ | ⟨token, working⟩) r heq
      · rw [takePairs] at heq; cases heq
      · exact takePairs_parse ih heq
    · rintro taken (_ | ⟨token, working⟩) r heq
      · rw [takeObject] at heq; cases heq
      · exact takeObject_parse ih heq
    · rintro list taken (_ | ⟨token, working⟩) r heq
      · rw [takeItems] at heq; cases heq
      · exact takeItems_parse ih heq
    · rintro taken (_ | ⟨token, working⟩) r heq
      · rw [takeArray] at heq; cases heq
      · exact takeArray_parse ih heq

end

/-- What is parsed without arguments is what the parser without faults gives. -/
theorem jsonParserParse_eq {tokens : List Token} {r : Option (QObject F)} (h : takeAll strtod none tokens = .ok r) :
    jsonParserParse strtod tokens = r := by
  rw [takeAll] at h
  cases hvalue : takeValue strtod none (3 * tokens.length) 0 (tokens.map Token.kind) with
  | error fault =>
    rw [hvalue] at h
    cases h
  | ok out =>
    rw [hvalue] at h
    cases h
    rw [jsonParserParse, (rulesParse _).value hvalue, forget, Option.map_map]
    rfl

/-- The counts of a streamer are those of the tokens it holds, and the tokens of every list that it has emitted close
what they open. -/
structure Counted (parser : JsonMessageParser) : Prop where
  counts : (parser.braceCount, parser.bracketCount) = depths (parser.tokens.map Token.kind)
  emitted : ∀ tokens ∈ parser.emitted, tokens ≠ [] ∧ depths (tokens.map Token.kind) = 0

theorem Counted.processToken {parser : JsonMessageParser} (h : Counted parser) (t : Token) :
    Counted (parser.processToken t) := by
  have hdepths : depths ((parser.tokens ++ [t]).map Token.kind) =
      (parser.braceCount, parser.bracketCount) + depth t.kind := by
    rw [List.map_append, depths_append, ← h.counts, List.map_singleton, depths_cons]
    exact congrArg _ (add_zero _)
  rw [processToken_depth]
  split
  · next hzero =>
    refine ⟨rfl, fun tokens hmem => ?_⟩
    rcases List.mem_append.mp hmem with hmem | hmem
    · exact h.emitted tokens hmem
    · rw [List.mem_singleton.mp hmem]
      exact ⟨by simp, hdepths.trans hzero⟩
  · exact ⟨hdepths.symm, h.emitted⟩

/-- What a lexer has emitted is counted. -/
theorem Counted.after {parser : JsonMessageParser} (h : Counted parser) (fed : Fed) : Counted (parser.after fed) := by
  have hfold : ∀ (ts : List Token) (parser : JsonMessageParser), Counted parser →
      Counted (ts.foldl JsonMessageParser.processToken parser) := by
    intro ts
    induction ts with
    | nil => exact fun _ h => h
    | cons t ts ih => exact fun parser h => ih _ (h.processToken t)
  obtain ⟨hcounts, hemitted⟩ := hfold fed.emits parser h
  exact ⟨hcounts, hemitted⟩

end Colama.Qemu.Json
