import Colama.Lib.Histories
import Colama.Vnc4.Connection

namespace Colama.Vnc4

open Lib

/-- The challenges that were sent. -/
def challenges (history : List Event) : List (List UInt8) :=
  history.filterMap fun
    | .challenge bytes => some bytes
    | _ => none

/-- The state that a history ends in. -/
def lastEntered (history : List Event) : Option RfbState :=
  (history.filterMap fun
    | .entered state => some state
    | _ => none).getLast?

/-- The connection has been closed, or given up. -/
def Ended (history : List Event) : Prop :=
  .entered .closing ∈ history ∨ .entered .invalid ∈ history

section Spec

variable (des : List UInt8 → List UInt8 → List UInt8) (types : List Nat)

/-- The object of one of the types has returned true; for VncAuth, after the right response to the challenge. -/
def Processed (history : List Event) : Prop :=
  ∃ before secType after, history = before ++ .processed secType :: after ∧ secType ∈ types ∧
    (secType = secTypeVncAuth → ∃ challenge response passwd, challenges before = [challenge] ∧
      .response response passwd ∈ before ∧ response.length = vncAuthChallengeSize ∧
      response = expectedResponse des passwd challenge)

/-- After that, the connection has been approved in the state in which it is queried. -/
def Approved (history : List Event) : Prop :=
  ∃ before after, history = before ++ .approve true .querying :: after ∧ Processed des types before

/-- What is allowed to happen next. -/
def Allowed (before : List Event) (e : Event) : Prop :=
  (e = .entered .initialisation ∨ e = .entered .normal ∨ e = .readMsg → Approved des types before) ∧
    (Ended before → ∀ state, e = .entered state → state = .closing ∨ state = .invalid)

/-- What the history of a connection shows, which ends in its state. -/
structure Gated (c : Conn) : Prop where
  allowed : Before (Allowed des types) c.history
  last : lastEntered c.history = some c.state

def Challenged (history : List Event) : SSecurity → Prop
  | .none => True
  | .vncAuth false _ response => challenges history = [] ∧ response = []
  | .vncAuth true challenge response => challenges history = [challenge] ∧ response.length ≤ vncAuthChallengeSize

structure Inv (c : Conn) : Prop extends Gated des types c where
  authenticated : c.authenticated = true → Approved des types c.history
  queried : c.state = .querying → Processed des types c.history
  ended : Ended c.history → c.state = .closing ∨ c.state = .invalid
  unchallenged : c.state = .protocolVersion ∨ c.state = .securityType → challenges c.history = []
  challenged : c.state = .security → ∀ s, c.security = some s → s.getType ∈ types ∧ Challenged c.history s

end Spec

/-- What a connection does by itself. -/
inductive ConnMove (config : Config) (des : List UInt8 → List UInt8 → List UInt8) (c : Conn) : Conn → Prop
  | silent {c' : Conn} (hhistory : c'.history = c.history) (hstate : c'.state = c.state)
    (hsecurity : c'.security = c.security) (hreverse : c'.reverseConnection = c.reverseConnection) : ConnMove config des c c'
  | approve (accept : Bool) : ConnMove config des c (c.note (.approve accept c.state))
  | respond (response passwd : List UInt8) : ConnMove config des c (c.note (.response response passwd))
  | fail (state : RfbState) (hstate : state = .closing ∨ state = .invalid) : ConnMove config des c (c.setState state)
  | offer (hstate : c.state = .protocolVersion) : ConnMove config des c (c.setState .securityType)
  | choose (secType : Nat) (s : SSecurity) (hstate : c.state = .protocolVersion ∨ c.state = .securityType)
    (hmem : secType ∈ getSecTypes config c.reverseConnection) (hs : getSSecurity secType = some s) :
    ConnMove config des c { c.setState .security with security := some s }
  | challenge (old challenge response : List UInt8) (hstate : c.state = .security)
    (hs : c.security = some (.vncAuth false old response)) :
    ConnMove config des c ({ c with security := some (.vncAuth true challenge response) }.note (.challenge challenge))
  | read (challenge response response' : List UInt8) (hstate : c.state = .security)
    (hs : c.security = some (.vncAuth true challenge response))
    (hlen : response.length ≤ vncAuthChallengeSize → response'.length ≤ vncAuthChallengeSize) :
    ConnMove config des c { c with security := some (.vncAuth true challenge response') }
  | trust (hstate : c.state = .security) (hs : c.security = some .none) :
    ConnMove config des c ((c.note (.processed secTypeNone)).setState .querying)
  | verify (challenge response passwd : List UInt8) (hstate : c.state = .security)
    (hs : c.security = some (.vncAuth true challenge response)) (hlen : vncAuthChallengeSize ≤ response.length)
    (hresponse : .response response passwd ∈ c.history) (heq : expectedResponse des passwd challenge = response) :
    ConnMove config des c ((c.note (.processed secTypeVncAuth)).setState .querying)
  | accept (before : List Event) (hstate : c.state = .querying) (hhistory : c.history = before ++ [.approve true .querying]) :
    ConnMove config des c (c.setState .initialisation)
  | readMsg (hstate : c.state = .normal) : ConnMove config des c (c.note .readMsg)

/-- What happens to the connections while one of them is served. -/
inductive Move (config : Config) (des : List UInt8 → List UInt8 → List UInt8) (f : Focus) : Focus → Prop
  | self {c : Conn} (h : ConnMove config des f.self c) : Move config des f { f with self := c }
  | closeSome (g : Conn → Conn) (hg : ∀ c, g c = c ∨ g c = c.close) :
    Move config des f { f with before := f.before.map g, after := f.after.map g }
  | normal (hstate : f.self.state = .initialisation)
    (halone : config.neverShared = true → ∀ c ∈ f.before ++ f.after, c.state ≠ .normal) :
    Move config des f (f.update (·.setState .normal))

section Histories

variable {des : List UInt8 → List UInt8 → List UInt8} {types : List Nat} {history : List Event} {e : Event}

theorem challenges_snoc (he : ∀ bytes, e ≠ .challenge bytes) : challenges (history ++ [e]) = challenges history := by
  cases e with
  | challenge bytes => exact absurd rfl (he bytes)
  | _ => simp [challenges]

theorem challenges_challenge (bytes : List UInt8) :
    challenges (history ++ [.challenge bytes]) = challenges history ++ [bytes] := by
  simp [challenges]

theorem lastEntered_entered (state : RfbState) : lastEntered (history ++ [.entered state]) = some state := by
  simp [lastEntered]

theorem lastEntered_snoc (he : ∀ state, e ≠ .entered state) : lastEntered (history ++ [e]) = lastEntered history := by
  cases e with
  | entered state => exact absurd rfl (he state)
  | _ => simp [lastEntered]

theorem ended_snoc : Ended (history ++ [e]) ↔ Ended history ∨ e = .entered .closing ∨ e = .entered .invalid := by
  simp only [Ended, List.mem_append, List.mem_singleton, eq_comm (b := e)]
  tauto

theorem Processed.snoc (h : Processed des types history) : Processed des types (history ++ [e]) := by
  obtain ⟨before, secType, after, rfl, hmem, hvnc⟩ := h
  exact ⟨before, secType, after ++ [e], by simp, hmem, hvnc⟩

theorem Processed.of_snoc (h : Processed des types (history ++ [e])) (he : ∀ secType, e ≠ .processed secType) :
    Processed des types history := by
  obtain ⟨before, secType, after, hsplit, hmem, hvnc⟩ := h
  rcases List.eq_nil_or_concat after with rfl | ⟨after, e', rfl⟩
  · obtain ⟨-, heq⟩ := List.append_inj' hsplit rfl
    exact absurd (List.singleton_inj.mp heq) (he secType)
  · rw [List.concat_eq_append, ← List.cons_append, ← List.append_assoc] at hsplit
    obtain ⟨rfl, -⟩ := List.append_inj' hsplit rfl
    exact ⟨before, secType, after, rfl, hmem, hvnc⟩

theorem Approved.snoc (h : Approved des types history) : Approved des types (history ++ [e]) := by
  obtain ⟨before, after, rfl, hprocessed⟩ := h
  exact ⟨before, after ++ [e], by simp, hprocessed⟩

end Histories

section Moves

variable {config : Config} {des : List UInt8 → List UInt8 → List UInt8} {types : List Nat} {c c' : Conn}

theorem Inv.congr (h : Inv des types c) (hhistory : c'.history = c.history) (hstate : c'.state = c.state)
    (hsecurity : c'.security = c.security) : Inv des types c' := by
  obtain ⟨⟨hallowed, hlast⟩, hauth, hquery, hended, hun, hch⟩ := h
  have hauth' : c'.authenticated = c.authenticated := by rw [Conn.authenticated, hstate, Conn.authenticated]
  constructor
  · constructor
    · rwa [hhistory]
    · rwa [hhistory, hstate]
  · rwa [hhistory, hauth']
  · rwa [hhistory, hstate]
  · rwa [hhistory, hstate]
  · rwa [hhistory, hstate]
  · rwa [hhistory, hstate, hsecurity]

theorem Inv.not_ended (h : Inv des types c) (hclosing : c.state ≠ .closing) (hinvalid : c.state ≠ .invalid) :
    ¬Ended c.history := by
  intro hended
  rcases h.ended hended with heq | heq
  · exact hclosing heq
  · exact hinvalid heq

theorem Challenged.snoc {history : List Event} {e : Event} {s : SSecurity} (h : Challenged history s)
    (he : ∀ bytes, e ≠ .challenge bytes) : Challenged (history ++ [e]) s := by
  cases s with
  | none => trivial
  | vncAuth sent challenge response =>
    cases sent with
    | false => exact ⟨(challenges_snoc he).trans h.1, h.2⟩
    | true => exact ⟨(challenges_snoc he).trans h.1, h.2⟩

/-- An event that neither enters a state nor is a challenge. -/
theorem Inv.note (h : Inv des types c) {e : Event} (hentered : ∀ state, e ≠ .entered state)
    (hchallenge : ∀ bytes, e ≠ .challenge bytes) (hreadMsg : e = .readMsg → Approved des types c.history) :
    Inv des types (c.note e) := by
  have hallowed : Allowed des types c.history e := by
    constructor
    · rintro (he | he | he)
      · exact absurd he (hentered .initialisation)
      · exact absurd he (hentered .normal)
      · exact hreadMsg he
    · exact fun _ state he => absurd he (hentered state)
  constructor
  · exact ⟨before_snoc.mpr ⟨h.allowed, hallowed⟩, (lastEntered_snoc hentered).trans h.last⟩
  · exact fun hauth => (h.authenticated hauth).snoc
  · exact fun hquery => (h.queried hquery).snoc
  · intro hended
    rcases ended_snoc.1 hended with hended | he | he
    · exact h.ended hended
    · exact absurd he (hentered .closing)
    · exact absurd he (hentered .invalid)
  · exact fun hun => (challenges_snoc hchallenge).trans (h.unchallenged hun)
  · exact fun hstate s hs => ⟨(h.challenged hstate s hs).1, (h.challenged hstate s hs).2.snoc hchallenge⟩

theorem Inv.fail (h : Inv des types c) {state : RfbState} (hstate : state = .closing ∨ state = .invalid) :
    Inv des types (c.setState state) := by
  have hallowed : Allowed des types c.history (.entered state) := by
    constructor
    · rcases hstate with rfl | rfl
      · rintro (he | he | he) <;> cases he
      · rintro (he | he | he) <;> cases he
    · rintro - state' he
      cases he
      exact hstate
  constructor
  · exact ⟨before_snoc.mpr ⟨h.allowed, hallowed⟩, lastEntered_entered state⟩
  · intro hauth
    rcases hstate with rfl | rfl
    · cases hauth
    · cases hauth
  · rintro rfl
    rcases hstate with heq | heq <;> cases heq
  · exact fun _ => hstate
  · intro hun
    rcases hstate with rfl | rfl
    · rcases hun with hun | hun <;> cases hun
    · rcases hun with hun | hun <;> cases hun
  · rintro rfl
    rcases hstate with heq | heq <;> cases heq

/-- A state that is entered before the end, with what is known then. -/
theorem Inv.enter (h : Inv des types c) (state : RfbState) (hhistory : c'.history = c.history ++ [.entered state])
    (hc' : c'.state = state) (hclosing : c.state ≠ .closing) (hinvalid : c.state ≠ .invalid)
    (hstate : state ≠ .closing ∧ state ≠ .invalid)
    (hauth : state = .initialisation ∨ state = .normal → Approved des types c.history)
    (hquery : state = .querying → Processed des types c.history)
    (hun : state = .protocolVersion ∨ state = .securityType → challenges c.history = [])
    (hch : state = .security → ∀ s, c'.security = some s → s.getType ∈ types ∧ Challenged c.history s) :
    Inv des types c' := by
  subst hc'
  have hended := h.not_ended hclosing hinvalid
  have hnot : ∀ bytes, Event.entered c'.state ≠ .challenge bytes := fun _ he => Event.noConfusion he
  have hallowed : Allowed des types c.history (.entered c'.state) := by
    constructor
    · rintro (he | he | he)
      · exact hauth (.inl (Event.entered.inj he))
      · exact hauth (.inr (Event.entered.inj he))
      · cases he
    · exact fun he => absurd he hended
  constructor
  · constructor
    · rw [hhistory]
      exact before_snoc.mpr ⟨h.allowed, hallowed⟩
    · rw [hhistory]
      exact lastEntered_entered c'.state
  · intro hauth'
    rw [hhistory]
    apply (hauth _).snoc
    simpa only [Conn.authenticated, Bool.or_eq_true, decide_eq_true_eq] using hauth'
  · intro heq
    rw [hhistory]
    exact (hquery heq).snoc
  · rw [hhistory]
    intro hended'
    rcases ended_snoc.mp hended' with hended' | he | he
    · exact absurd hended' hended
    · exact absurd (Event.entered.inj he) hstate.1
    · exact absurd (Event.entered.inj he) hstate.2
  · intro heq
    rw [hhistory]
    exact (challenges_snoc hnot).trans (hun heq)
  · intro heq s hs
    rw [hhistory]
    exact ⟨(hch heq s hs).1, (hch heq s hs).2.snoc hnot⟩

theorem Inv.change (h : Inv des types c) {s s' : SSecurity} (hhistory : c'.history = c.history)
    (hstate : c'.state = c.state) (hc : c.state = .security) (hs : c.security = some s) (hs' : c'.security = some s')
    (htype : s'.getType = s.getType) (hch : Challenged c.history s → Challenged c.history s') : Inv des types c' := by
  have hold := h.challenged hc s hs
  obtain ⟨⟨hallowed, hlast⟩, hauth, hquery, hended, hun, -⟩ := h
  constructor
  · constructor
    · rwa [hhistory]
    · rwa [hhistory, hstate]
  · intro hauth'
    simp [Conn.authenticated, hstate, hc] at hauth'
  · intro hquery'
    rw [hstate, hc] at hquery'
    cases hquery'
  · rwa [hhistory, hstate]
  · rwa [hhistory, hstate]
  · intro _ s₁ hs₁
    rw [hs'] at hs₁
    cases hs₁
    rw [htype, hhistory]
    exact ⟨hold.1, hch hold.2⟩

/-- The security object of the connection has returned true. -/
theorem Inv.processed (h : Inv des types c) {s : SSecurity} (hstate : c.state = .security) (hs : c.security = some s)
    (hvnc : s.getType = secTypeVncAuth → ∃ challenge response passwd, challenges c.history = [challenge] ∧
      .response response passwd ∈ c.history ∧ response.length = vncAuthChallengeSize ∧
      response = expectedResponse des passwd challenge) :
    Inv des types ((c.note (.processed s.getType)).setState .querying) := by
  have hnote : Inv des types (c.note (.processed s.getType)) := by
    apply h.note
    · exact fun _ he => Event.noConfusion he
    · exact fun _ he => Event.noConfusion he
    · exact fun he => Event.noConfusion he
  apply hnote.enter .querying rfl rfl
  · exact fun heq => by simp [Conn.note, hstate] at heq
  · exact fun heq => by simp [Conn.note, hstate] at heq
  · decide
  · rintro (heq | heq) <;> cases heq
  · exact fun _ => ⟨c.history, s.getType, [], rfl, (h.challenged hstate s hs).1, hvnc⟩
  · rintro (heq | heq) <;> cases heq
  · exact fun heq => RfbState.noConfusion heq

theorem getType_of_getSSecurity {secType : Nat} {s : SSecurity} (hs : getSSecurity secType = some s) :
    s.getType = secType ∧ (s = .none ∨ s = .vncAuth false [] []) := by
  unfold getSSecurity at hs
  split at hs
  · rename_i heq
    cases hs
    exact ⟨heq.symm, .inl rfl⟩
  · split at hs
    · rename_i heq
      cases hs
      exact ⟨heq.symm, .inr rfl⟩
    · cases hs

theorem ConnMove.reverse (h : ConnMove config des c c') : c'.reverseConnection = c.reverseConnection := by
  cases h with
  | silent _ _ _ hreverse => exact hreverse
  | _ => rfl

theorem ConnMove.inv (h : ConnMove config des c c') (hc : Inv des (getSecTypes config c.reverseConnection) c) :
    Inv des (getSecTypes config c'.reverseConnection) c' := by
  rw [h.reverse]
  cases h with
  | silent hhistory hstate hsecurity _ => exact hc.congr hhistory hstate hsecurity
  | approve accept =>
    apply hc.note
    · exact fun _ he => Event.noConfusion he
    · exact fun _ he => Event.noConfusion he
    · exact fun he => Event.noConfusion he
  | respond response passwd =>
    apply hc.note
    · exact fun _ he => Event.noConfusion he
    · exact fun _ he => Event.noConfusion he
    · exact fun he => Event.noConfusion he
  | fail state hstate => exact hc.fail hstate
  | offer hstate =>
    apply hc.enter .securityType rfl rfl
    · exact fun heq => by simp [hstate] at heq
    · exact fun heq => by simp [hstate] at heq
    · decide
    · rintro (heq | heq) <;> cases heq
    · exact fun heq => RfbState.noConfusion heq
    · exact fun _ => hc.unchallenged (.inl hstate)
    · exact fun heq => RfbState.noConfusion heq
  | choose secType s hstate hmem hs =>
    obtain ⟨htype, hs'⟩ := getType_of_getSSecurity hs
    have hun := hc.unchallenged hstate
    apply hc.enter .security rfl rfl
    · rcases hstate with hstate | hstate <;> simp [hstate]
    · rcases hstate with hstate | hstate <;> simp [hstate]
    · decide
    · rintro (heq | heq) <;> cases heq
    · exact fun heq => RfbState.noConfusion heq
    · rintro (heq | heq) <;> cases heq
    · rintro - s₁ hs₁
      cases hs₁
      refine ⟨htype ▸ hmem, ?_⟩
      rcases hs' with rfl | rfl
      · trivial
      · exact ⟨hun, rfl⟩
  | challenge old challenge response hstate hs =>
    obtain ⟨hmem, hnone, hresponse⟩ := hc.challenged hstate _ hs
    have hallowed : Allowed des (getSecTypes config c.reverseConnection) c.history (.challenge challenge) := by
      constructor
      · rintro (he | he | he) <;> cases he
      · exact fun _ state he => Event.noConfusion he
    constructor
    · exact ⟨before_snoc.mpr ⟨hc.allowed, hallowed⟩, (lastEntered_snoc fun _ he => Event.noConfusion he).trans hc.last⟩
    · exact fun hauth => (hc.authenticated hauth).snoc
    · exact fun hquery => (hc.queried hquery).snoc
    · intro hended
      rcases ended_snoc.mp hended with hended | he | he
      · exact hc.ended hended
      · cases he
      · cases he
    · intro hun
      simp [Conn.note, hstate] at hun
    · rintro - s hs'
      cases hs'
      refine ⟨hmem, ?_, ?_⟩
      · rw [Conn.note, challenges_challenge, hnone, List.nil_append]
      · rw [hresponse]
        exact Nat.zero_le _
  | read challenge response response' hstate hs hlen =>
    exact hc.change rfl rfl hstate hs rfl rfl fun hch => ⟨hch.1, hlen hch.2⟩
  | trust hstate hs =>
    apply hc.processed hstate hs
    exact fun h => absurd h (by decide)
  | verify challenge response passwd hstate hs hlen hresponse heq =>
    have hch := (hc.challenged hstate _ hs).2
    apply hc.processed hstate hs
    exact fun _ => ⟨challenge, response, passwd, hch.1, hresponse, le_antisymm hch.2 hlen, heq.symm⟩
  | accept before hstate hhistory =>
    have hprocessed : Processed des (getSecTypes config c.reverseConnection) before := by
      apply Processed.of_snoc (e := .approve true .querying)
      · exact hhistory ▸ hc.queried hstate
      · exact fun _ he => Event.noConfusion he
    apply hc.enter .initialisation rfl rfl
    · exact fun heq => by simp [hstate] at heq
    · exact fun heq => by simp [hstate] at heq
    · decide
    · exact fun _ => ⟨before, [], hhistory, hprocessed⟩
    · exact fun heq => RfbState.noConfusion heq
    · rintro (heq | heq) <;> cases heq
    · exact fun heq => RfbState.noConfusion heq
  | readMsg hstate =>
    apply hc.note
    · exact fun _ he => Event.noConfusion he
    · exact fun _ he => Event.noConfusion he
    · exact fun _ => hc.authenticated (by simp [Conn.authenticated, hstate])

/-- All the connections are in order. -/
def Sound (config : Config) (des : List UInt8 → List UInt8 → List UInt8) (clients : List Conn) : Prop :=
  ∀ c ∈ clients, Inv des (getSecTypes config c.reverseConnection) c

theorem mem_clients {f : Focus} : c ∈ f.clients ↔ c ∈ f.before ++ f.after ∨ c = f.self := by
  simp only [Focus.clients, List.mem_append, List.mem_cons]
  tauto

theorem Inv.close (h : Inv des types c) : Inv des types c.close := h.fail (.inl rfl)

theorem Move.sound {f f' : Focus} (h : Move config des f f') (hf : Sound config des f.clients) :
    Sound config des f'.clients := by
  have hself := hf f.self (mem_clients.2 (.inr rfl))
  cases h with
  | self hmove =>
    intro c hc
    rcases mem_clients.1 hc with hc | rfl
    · exact hf c (mem_clients.2 (.inl hc))
    · exact hmove.inv hself
  | closeSome g hg =>
    intro c hc
    rcases mem_clients.1 hc with hc | rfl
    · rw [← List.map_append] at hc
      obtain ⟨c₀, hc₀, rfl⟩ := List.mem_map.mp hc
      have hinv := hf c₀ (mem_clients.2 (.inl hc₀))
      rcases hg c₀ with heq | heq
      · rw [heq]
        exact hinv
      · rw [heq]
        exact hinv.close
    · exact hself
  | normal hstate halone =>
    intro c hc
    rcases mem_clients.1 hc with hc | rfl
    · exact hf c (mem_clients.2 (.inl hc))
    · apply hself.enter .normal rfl rfl
      · exact fun heq => by simp [hstate] at heq
      · exact fun heq => by simp [hstate] at heq
      · decide
      · exact fun _ => hself.authenticated (by simp [Conn.authenticated, hstate])
      · exact fun heq => RfbState.noConfusion heq
      · rintro (heq | heq) <;> cases heq
      · exact fun heq => RfbState.noConfusion heq

end Moves

section Functions

variable (config : Config) (des : List UInt8 → List UInt8 → List UInt8) (env : Env)

abbrev Moves : Focus → Focus → Prop := Relation.ReflTransGen (Move config des)

abbrev ConnMoves : Conn → Conn → Prop := Relation.ReflTransGen (ConnMove config des)

variable {config des}

theorem ConnMoves.moves {c c' : Conn} (h : ConnMoves config des c c') {f : Focus} (hc : f.self = c) :
    Moves config des f { f with self := c' } := by
  induction h with
  | refl =>
    subst hc
    exact .refl
  | tail _ hmove ih => exact ih.tail (.self hmove)

theorem ConnMove.moves {f : Focus} {c : Conn} (h : ConnMove config des f.self c) :
    Moves config des f { f with self := c } := .single (.self h)

theorem write_moves (f : Focus) (bytes : List UInt8) : Moves config des f (f.update (·.write bytes)) :=
  ConnMove.moves (.silent rfl rfl rfl rfl)

theorem fail_moves (f : Focus) {state : RfbState} (hstate : state = .closing ∨ state = .invalid) :
    Moves config des f (f.update (·.setState state)) := ConnMove.moves (.fail state hstate)

theorem orClose_moves {f : Focus} {r : Focus × Option Exn} (h : Moves config des f r.1) :
    Moves config des f (orClose r) := by
  rcases r with ⟨f', _ | e⟩
  · exact h
  · exact h.trans (fail_moves f' (.inl rfl))

theorem closeMap_moves (f : Focus) {g : Conn → Conn} (hg : ∀ c, g c = c ∨ g c = c.close) :
    Moves config des f (f.map g) := by
  have hothers : Move config des f { f with before := f.before.map g, after := f.after.map g } := .closeSome g hg
  apply Relation.ReflTransGen.head hothers
  rcases hg f.self with heq | heq
  · rw [Focus.map, heq]
  · rw [Focus.map, heq]
    exact fail_moves _ (.inl rfl)

theorem authSuccess_moves (f : Focus) : Moves config des f (authSuccess env f).1 := by
  apply closeMap_moves
  intro c
  unfold pixelBufferChange
  split
  · exact .inr rfl
  · exact .inl rfl

theorem approveConnection_moves (accept : Bool) (reason : Option String) (f : Focus) :
    Moves config des f (approveConnection env accept reason f).1 := by
  have hnote : Moves config des f (f.update (·.note (.approve accept f.self.state))) :=
    ConnMove.moves (.approve accept)
  apply hnote.trans
  unfold approveConnection
  extract_lets f₁ c reason f₂
  split
  · exact .refl
  · rename_i hstate
    have hquery : f.self.state = .querying := not_not.mp hstate
    have hsent : Moves config des f₁ f₂ ∧ f₂.self.history = f₁.self.history ∧ f₂.self.state = f₁.self.state := by
      unfold f₂
      split
      · split
        · exact ⟨write_moves f₁ _, rfl, rfl⟩
        · exact ⟨write_moves f₁ _, rfl, rfl⟩
      · exact ⟨.refl, rfl, rfl⟩
    obtain ⟨hmoves, hhistory, hstate'⟩ := hsent
    apply hmoves.trans
    split
    · rename_i haccept
      have hlast : f₂.self.history = f.self.history ++ [.approve true .querying] := by
        rw [hhistory]
        show f.self.history ++ [.approve accept f.self.state] = _
        rw [haccept, hquery]
      have hmove : ConnMove config des f₂.self (f₂.self.setState .initialisation) :=
        .accept f.self.history (hstate'.trans hquery) hlast
      exact hmove.moves.trans (authSuccess_moves env _)
    · exact fail_moves f₂ (.inr rfl)

theorem catchAuthFailure_moves {f : Focus} {r : Focus × Option Exn} (h : Moves config des f r.1) :
    Moves config des f (catchAuthFailure r).1 := by
  unfold catchAuthFailure
  split
  · exact h.trans (write_moves _ _)
  · exact h

theorem queryConnection_moves (f : Focus) : Moves config des f (queryConnection config env f).1 := by
  unfold queryConnection
  split
  · exact approveConnection_moves env _ _ f
  · split
    · exact approveConnection_moves env _ _ f
    · split
      · exact .refl
      · exact approveConnection_moves env _ _ f
      · exact approveConnection_moves env _ _ f

theorem processMsg_connMoves {c c' : Conn} {s : SSecurity} {r : Except Exn Bool} (hstate : c.state = .security)
    (hs : c.security = some s) (hr : s.processMsg des env c = (c', r)) : ConnMoves config des c c' ∧
      (r = .ok true → ConnMove config des c' ((c'.note (.processed s.getType)).setState .querying)) := by
  cases s with
  | none =>
    cases hr
    exact ⟨.refl, fun _ => .trust hstate hs⟩
  | vncAuth sent challenge response =>
    cases sent with
    | false =>
      cases hr
      refine ⟨?_, fun h => by cases h⟩
      apply Relation.ReflTransGen.head (b := c.write (List.ofFn env.challenge))
      · exact .silent rfl rfl rfl rfl
      · exact .single (.challenge challenge (List.ofFn env.challenge) response hstate hs)
    | true =>
      simp only [SSecurity.processMsg] at hr
      have hlen : response.length ≤ vncAuthChallengeSize →
          (response ++ c.input.take (vncAuthChallengeSize - response.length)).length ≤ vncAuthChallengeSize := by
        intro hle
        rw [List.length_append, List.length_take]
        omega
      generalize response ++ c.input.take (vncAuthChallengeSize - response.length) = response' at hr hlen
      have hread : ConnMoves config des c { c with input := c.input.drop (vncAuthChallengeSize - response.length),
                                                   security := some (.vncAuth true challenge response') } := by
        apply Relation.ReflTransGen.head (b := { c with input := c.input.drop (vncAuthChallengeSize - response.length) })
        · exact .silent rfl rfl rfl rfl
        · exact .single (.read challenge response response' hstate hs hlen)
      split at hr
      · cases hr
        exact ⟨hread, fun h => by cases h⟩
      · rename_i hfull
        split at hr
        · cases hr
          exact ⟨hread, fun h => by cases h⟩
        · rename_i passwd hpasswd
          have hrespond := hread.tail (.respond response' passwd)
          split at hr
          · cases hr
            exact ⟨hrespond, fun h => by cases h⟩
          · rename_i heq
            cases hr
            refine ⟨hrespond, fun _ => ?_⟩
            exact .verify challenge response' passwd hstate rfl (Nat.not_lt.mp hfull)
              (List.mem_append_right _ List.mem_cons_self) (not_not.mp heq)

theorem processSecurityMsg_moves {f : Focus} (hstate : f.self.state = .security) :
    Moves config des f (processSecurityMsg config des env f).1 := by
  unfold processSecurityMsg
  split
  · exact .refl
  · rename_i s hs
    split
    · rename_i c hr
      exact (processMsg_connMoves env hstate hs hr).1.moves rfl
    · rename_i c hr
      obtain ⟨hmoves, hdone⟩ := @processMsg_connMoves config des env _ _ _ _ hstate hs hr
      apply catchAuthFailure_moves
      exact (ConnMoves.moves (hmoves.tail (hdone rfl)) rfl).trans (queryConnection_moves env _)
    · rename_i c e hr
      apply catchAuthFailure_moves
      exact (processMsg_connMoves env hstate hs hr).1.moves rfl

theorem throwConnFailedException_moves (msg : String) (f : Focus) :
    Moves config des f (throwConnFailedException msg f).1 := by
  rw [throwConnFailedException]
  dsimp only
  split
  · split
    · exact (write_moves f _).trans (fail_moves _ (.inr rfl))
    · exact (write_moves f _).trans (fail_moves _ (.inr rfl))
  · exact fail_moves f (.inr rfl)

theorem getSSecurity_isSome {secType : Nat} {reverse : Bool} (h : secType ∈ getSecTypes config reverse) :
    ∃ s, getSSecurity secType = some s := by
  have hsupported := (List.mem_filter.mp h).2
  simp only [isSecTypeSupported, Bool.or_eq_true, decide_eq_true_eq] at hsupported
  rcases hsupported with rfl | rfl
  · exact ⟨.none, rfl⟩
  · exact ⟨.vncAuth false [] [], rfl⟩

/-- A security type is chosen, and its object asked for the first time. -/
theorem choose_moves {f : Focus} {secType : Nat} {s : SSecurity}
    (hstate : f.self.state = .protocolVersion ∨ f.self.state = .securityType)
    (hmem : secType ∈ getSecTypes config f.self.reverseConnection) (hs : getSSecurity secType = some s) :
    Moves config des f (processSecurityMsg config des env
      (f.update fun c => { c.setState .security with security := some s })).1 := by
  have hmove : ConnMove config des f.self { f.self.setState .security with security := some s } :=
    .choose secType s hstate hmem hs
  exact Relation.ReflTransGen.head (.self hmove) (processSecurityMsg_moves env rfl)

theorem offerSecTypes_moves {f : Focus} (hstate : f.self.state = .protocolVersion) :
    Moves config des f (offerSecTypes config des env f).1 := by
  unfold offerSecTypes
  extract_lets secTypes
  split
  · split
    · exact throwConnFailedException_moves _ f
    · rename_i secType hfind
      have hmem : secType ∈ getSecTypes config f.self.reverseConnection := List.mem_of_find?_eq_some hfind
      obtain ⟨s, hs⟩ := getSSecurity_isSome hmem
      rw [hs]
      exact (write_moves f _).trans (choose_moves env (.inl hstate) hmem hs)
  · split
    · exact throwConnFailedException_moves _ f
    · apply (write_moves f _).trans
      exact ConnMove.moves (.offer hstate)

theorem processVersionMsg_moves {f : Focus} (hstate : f.self.state = .protocolVersion) :
    Moves config des f (processVersionMsg config des env f).1 := by
  have hfailed : ∀ f' : Focus, Moves config des f f' → Moves config des f (f'.update (·.setState .invalid)) :=
    fun f' hmoves => hmoves.trans (fail_moves f' (.inr rfl))
  unfold processVersionMsg
  extract_lets failed n verStr f₁
  have hread : Moves config des f f₁ := ConnMove.moves (.silent rfl rfl rfl rfl)
  have hversion : ∀ cp, Moves config des f (f₁.update fun c => { c with cp := cp }) := by
    intro cp
    exact hread.trans (ConnMove.moves (.silent rfl rfl rfl rfl))
  split
  · exact hfailed f .refl
  · split
    · exact hread
    · split
      · exact hfailed f₁ hread
      · dsimp only
        split
        · exact (hversion _).trans (throwConnFailedException_moves _ _)
        · exact (hversion _).trans (offerSecTypes_moves env hstate)

theorem processSecurityTypeMsg_moves {f : Focus} (secType : Nat) (hstate : f.self.state = .securityType) :
    Moves config des f (processSecurityTypeMsg config des env secType f).1 := by
  unfold processSecurityTypeMsg
  split
  · exact .refl
  · rename_i hmem
    have hmem' := not_not.mp hmem
    obtain ⟨s, hs⟩ := getSSecurity_isSome hmem'
    rw [hs]
    exact choose_moves env (.inr hstate) hmem' hs

theorem Focus.countP_clients (f : Focus) (p : Conn → Bool) :
    f.clients.countP p = (f.before ++ f.after).countP p + if p f.self then 1 else 0 := by
  simp only [Focus.clients, List.countP_append, List.countP_cons]
  omega

/-- The only connection that is authenticated is the one that is served. -/
theorem alone_of_authClientCount {f : Focus} (hself : f.self.authenticated = true) (h : f.authClientCount ≤ 1) :
    ∀ c ∈ f.before ++ f.after, c.state ≠ .normal := by
  rw [Focus.authClientCount, f.countP_clients, if_pos hself] at h
  have hzero : (f.before ++ f.after).countP Conn.authenticated = 0 := by omega
  intro c hc hnormal
  apply List.countP_eq_zero.mp hzero c hc
  simp [Conn.authenticated, hnormal]

theorem closeClients_moves (f : Focus) : Moves config des f f.closeClients :=
  .single (.closeSome Conn.close fun _ => .inr rfl)

theorem closeClients_alone (f : Focus) : ∀ c ∈ f.closeClients.before ++ f.closeClients.after, c.state ≠ .normal := by
  intro c hc
  rw [Focus.closeClients, ← List.map_append] at hc
  obtain ⟨c, -, rfl⟩ := List.mem_map.mp hc
  exact RfbState.noConfusion

theorem clientInit_moves {f : Focus} (shared : Bool) (hstate : f.self.state = .initialisation) :
    Moves config des f (clientInit config env shared f).1 := by
  unfold clientInit
  extract_lets shared₁ shared₂ init
  have hinit : ∀ f' : Focus, f'.self.state = .initialisation →
      (config.neverShared = true → ∀ c ∈ f'.before ++ f'.after, c.state ≠ .normal) →
      Moves config des f' (init f').1 := by
    intro f' hstate' halone
    unfold init
    split
    · exact .refl
    · apply (write_moves f' _).trans
      exact .single (.normal hstate' halone)
  split
  · rename_i hshared
    apply hinit f hstate
    intro hnever
    simp [shared₂, hnever] at hshared
  · split
    · exact (closeClients_moves f).trans (hinit _ hstate fun _ => closeClients_alone f)
    · split
      · exact fail_moves f (.inl rfl)
      · rename_i hcount
        apply hinit f hstate
        intro _
        apply alone_of_authClientCount
        · simp [Conn.authenticated, hstate]
        · exact Nat.not_lt.mp hcount

theorem readMsg_moves {f : Focus} (hstate : f.self.state = .normal) : Moves config des f (readMsg env f).1 := by
  unfold readMsg
  dsimp only
  have hread : Moves config des f (f.update fun c => { c with input := c.input.drop ((env.readMsg f.self.input).1 + 1) }) :=
    ConnMove.moves (.silent rfl rfl rfl rfl)
  apply hread.trans
  apply Relation.ReflTransGen.head (.self (.readMsg hstate))
  apply closeMap_moves
  intro c
  split
  · exact .inr rfl
  · exact .inl rfl

/-- Whatever is found in a state, it is handled by moves. -/
theorem processMsg_moves (f : Focus) : Moves config des f (processMsg config des env f).1 := by
  have hrest : Moves config des f (f.update fun c => { c with input := c.input.drop 1 }) :=
    ConnMove.moves (.silent rfl rfl rfl rfl)
  unfold processMsg
  dsimp only
  split
  · exact processVersionMsg_moves env ‹_›
  · exact hrest.trans (processSecurityTypeMsg_moves env _ ‹_›)
  · exact processSecurityMsg_moves env ‹_›
  · exact hrest.trans (clientInit_moves env _ ‹_›)
  · exact readMsg_moves env ‹_›
  · exact .refl
  · exact .refl
  · exact .refl
  · exact .refl

theorem processWhile_moves (fuel : Nat) (f : Focus) : Moves config des f (processWhile config des env fuel f) := by
  induction fuel generalizing f with
  | zero => exact .refl
  | succ fuel ih =>
    have hmsg : Moves config des f (processMsg config des env f).1 := processMsg_moves env f
    rw [processWhile]
    split
    · exact .refl
    · split
      · rename_i f' hr
        rw [hr] at hmsg
        exact hmsg.trans (ih f')
      · rename_i f' e hr
        rw [hr] at hmsg
        exact orClose_moves hmsg

theorem processMessages_moves (f : Focus) : Moves config des f (processMessages config des env f) := by
  unfold processMessages
  split
  · exact .refl
  · exact processWhile_moves env _ f

end Functions

section Runs

variable {config : Config} {des : List UInt8 → List UInt8 → List UInt8}

theorem clients_of_focusOn {sock : Nat} {clients : List Conn} {f : Focus} (h : focusOn sock clients = some f) :
    f.clients = clients := by
  induction clients generalizing f with
  | nil => cases h
  | cons c cs ih =>
    rw [focusOn] at h
    split at h
    · cases h
      rfl
    · obtain ⟨f', hf', rfl⟩ := Option.map_eq_some_iff.mp h
      have heq := ih hf'
      show c :: (f'.before ++ f'.self :: f'.after) = c :: cs
      rw [← heq]
      rfl

/-- An invariant of the moves is kept when a connection is served. -/
theorem serve_invariant (P : List Conn → Prop) {sock : Nat} {g : Focus → Focus} {clients : List Conn}
    (hmove : ∀ f f', Move config des f f' → P f.clients → P f'.clients) (hg : ∀ f, Moves config des f (g f))
    (h : P clients) : P (serve sock g clients) := by
  unfold serve
  split
  · exact h
  · rename_i f hf
    rw [← clients_of_focusOn hf] at h
    have hmoves := hg f
    generalize g f = f' at hmoves
    induction hmoves with
    | refl => exact h
    | tail _ hlast ih => exact hmove _ _ hlast ih

/-- An invariant of the moves that allows new connections, and their removal, holds in every run. -/
theorem run_invariant (P : List Conn → Prop) (hmove : ∀ f f', Move config des f f' → P f.clients → P f'.clients)
    (hnil : P []) (hnew : ∀ sock outgoing requiresQuery clients, P clients →
      P (newConn config sock outgoing requiresQuery :: clients))
    (hremove : ∀ sock clients, P clients → P (clients.filter (·.sock ≠ sock))) (actions : List Action) :
    P (run config des actions) := by
  unfold run
  induction actions using List.reverseRecOn with
  | nil => exact hnil
  | append_singleton actions a ih =>
    rw [List.foldl_append, List.foldl_cons, List.foldl_nil]
    generalize actions.foldl (step config des) [] = clients at ih ⊢
    cases a with
    | addSocket sock outgoing blackmarked requiresQuery =>
      rw [step]
      split
      · exact ih
      · exact hnew _ _ _ _ ih
    | removeSocket sock => exact hremove sock clients ih
    | processSocketEvent sock data env =>
      apply serve_invariant P hmove _ ih
      intro f
      have hdata : Moves config des f (f.update fun c => { c with input := c.input ++ data }) :=
        ConnMove.moves (.silent rfl rfl rfl rfl)
      exact hdata.trans (processMessages_moves env _)
    | approveConnection sock accept reason env =>
      apply serve_invariant P hmove _ ih
      exact fun f => orClose_moves (approveConnection_moves env accept reason f)
    | close sock =>
      apply serve_invariant P hmove _ ih
      exact fun f => fail_moves f (.inl rfl)

theorem newConn_inv (sock : Nat) (outgoing requiresQuery : Bool) :
    Inv des (getSecTypes config outgoing) (newConn config sock outgoing requiresQuery) := by
  have hallowed : Allowed des (getSecTypes config outgoing) [] (.entered .protocolVersion) := by
    constructor
    · rintro (he | he | he) <;> cases he
    · rintro (hended | hended) <;> cases hended
  constructor
  · exact ⟨before_snoc.mpr ⟨before_nil, hallowed⟩, rfl⟩
  · exact fun hauth => absurd hauth (by simp [newConn, Conn.authenticated, Conn.setState, Conn.note])
  · exact fun hquery => RfbState.noConfusion hquery
  · intro hended
    rcases ended_snoc.mp hended with (hended | hended) | he | he
    · cases hended
    · cases hended
    · cases he
    · cases he
  · exact fun _ => rfl
  · exact fun hstate => RfbState.noConfusion hstate

theorem run_sound (config : Config) (des : List UInt8 → List UInt8 → List UInt8) (actions : List Action) :
    Sound config des (run config des actions) := by
  refine @run_invariant config des (Sound config des) ?_ ?_ ?_ ?_ actions
  · exact fun f f' hmove => hmove.sound
  · exact fun c hc => absurd hc List.not_mem_nil
  · intro sock outgoing requiresQuery clients hclients c hc
    rcases List.mem_cons.mp hc with rfl | hc
    · exact newConn_inv sock outgoing requiresQuery
    · exact hclients c hc
  · exact fun sock clients hclients c hc => hclients c (List.mem_filter.mp hc).1

/-- In every run, a connection gets past the queries only after it has been authenticated by a type that
is offered to it and then approved, and once it is closing or invalid it stays so. -/
theorem run_gated (config : Config) (des : List UInt8 → List UInt8 → List UInt8) (actions : List Action) (c : Conn)
    (hc : c ∈ run config des actions) : Gated des (getSecTypes config c.reverseConnection) c :=
  (run_sound config des actions c hc).toGated

/-- A client that answers the challenge `0, 1, …, 15` for a cipher that adds one to each byte, in reads cut at odd places. -/
def vncAuthActions : List Action :=
  let env : Env :=
    { challenge := fun i => UInt8.ofNat i, vncAuthPasswd := some [7], queryResult := .accept, queryReason := none,
      startDesktop := ⟨fun _ => false, false⟩, serverInit := some [1, 2, 3], readMsg := fun _ => (0, ⟨fun _ => false, false⟩) }
  [.addSocket 4 false false false, .processSocketEvent 4 (text "RFB 003.0") env,
    .processSocketEvent 4 (text "08\n" ++ [2, 1, 2, 3]) env,
    .processSocketEvent 4 ((List.range 13).map (fun i => UInt8.ofNat (i + 4)) ++ [1]) env]

def vncAuthConfig : Config :=
  { protocol3_3 := false, neverShared := true, alwaysShared := false, disconnectClients := false,
    queryConnect := false, secTypes := [5, 2], revSecTypes := [] }

theorem run_gated_vncAuth : ∃ c ∈ run vncAuthConfig (fun _ block => block.map (· + 1)) vncAuthActions,
    c.state = .normal ∧
      Gated (fun _ block => block.map (· + 1)) (getSecTypes vncAuthConfig c.reverseConnection) c := by
  have hne : run vncAuthConfig (fun _ block => block.map (· + 1)) vncAuthActions ≠ [] := by decide
  have hnormal : ∀ c ∈ run vncAuthConfig (fun _ block => block.map (· + 1)) vncAuthActions, c.state = .normal := by
    decide
  refine ⟨List.head _ hne, List.head_mem hne, hnormal _ (List.head_mem hne), ?_⟩
  exact run_gated _ _ _ _ (List.head_mem hne)

theorem countP_normal_map_close {g : Conn → Conn} (hg : ∀ c, g c = c ∨ g c = c.close) (l : List Conn) :
    (l.map g).countP (·.state = .normal) ≤ l.countP (·.state = .normal) := by
  rw [List.countP_map]
  apply List.countP_mono_left
  intro c _ hc
  rcases hg c with heq | heq
  · rwa [Function.comp_apply, heq] at hc
  · simp [heq, Conn.close, Conn.setState, Conn.note] at hc

theorem ConnMove.normal {c c' : Conn} (h : ConnMove config des c c') (hc : c'.state = .normal) : c.state = .normal := by
  cases h with
  | silent _ hstate _ _ => exact hstate ▸ hc
  | fail state hstate =>
    cases hc
    rcases hstate with heq | heq <;> cases heq
  | offer _ => cases hc
  | choose _ _ _ _ _ => cases hc
  | trust _ _ => cases hc
  | verify _ _ _ _ _ _ _ _ => cases hc
  | accept _ _ _ => cases hc
  | _ => exact hc

/-- At most one connection is in the normal state. -/
def Exclusive (clients : List Conn) : Prop := clients.countP (·.state = .normal) ≤ 1

theorem Move.exclusive (hnever : config.neverShared = true) {f f' : Focus} (h : Move config des f f')
    (hf : Exclusive f.clients) : Exclusive f'.clients := by
  rw [Exclusive, Focus.countP_clients] at hf ⊢
  cases h with
  | @self c hmove =>
    have hnormal : (if decide (c.state = .normal) then 1 else 0) ≤ if decide (f.self.state = .normal) then 1 else 0 := by
      by_cases hc : c.state = .normal
      · simp [hc, hmove.normal hc]
      · simp [hc]
    dsimp only at hnormal ⊢
    omega
  | closeSome g hg =>
    have hle := countP_normal_map_close hg (f.before ++ f.after)
    rw [List.map_append] at hle
    dsimp only at hle hf ⊢
    omega
  | normal hstate halone =>
    have hzero : (f.before ++ f.after).countP (·.state = .normal) = 0 := by
      apply List.countP_eq_zero.mpr
      intro c hc
      simpa using halone hnever c hc
    dsimp only [Focus.update] at hzero ⊢
    simp [hzero, Conn.setState, Conn.note]

theorem run_exclusive (config : Config) (des : List UInt8 → List UInt8 → List UInt8)
    (hnever : config.neverShared = true) (actions : List Action) :
    (run config des actions).countP (·.state = .normal) ≤ 1 := by
  refine @run_invariant config des Exclusive ?_ ?_ ?_ ?_ actions
  · exact fun f f' hmove => hmove.exclusive hnever
  · exact Nat.zero_le 1
  · intro sock outgoing requiresQuery clients hclients
    rw [Exclusive, List.countP_cons_of_neg]
    · exact hclients
    · simp [newConn, Conn.setState, Conn.note]
  · exact fun sock clients hclients => (List.filter_sublist.countP_le).trans hclients

theorem run_exclusive_vncAuth : vncAuthConfig.neverShared = true ∧
    (run vncAuthConfig (fun _ block => block.map (· + 1)) vncAuthActions).countP (·.state = .normal) ≤ 1 :=
  ⟨rfl, run_exclusive _ _ rfl _⟩

end Runs

end Colama.Vnc4
