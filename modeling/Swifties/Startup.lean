import Swifties.ConfigGrammar
import Swifties.ConfigSearch
import Swifties.Routing
import Swifties.Session

/-!
# Starting the server

`main` reads the port, the timer and the credentials out of the parsed config
and constructs the dispatcher, in this order; an invalid port or timer ends it
before the rest is looked at.  The timer is kept in a `short`.
-/

namespace Swifties

open BlockGrammar NginxConfigStatement RequestHandlerDispatcher

inductive StartResult where
  | unableToParse
  | invalidPort
  | invalidAuthTime
  | serving (port authTime : Int16) (credentials : Credentials)
      (handlers : Handlers)

def storedTimer (config : NginxConfig) : Int16 := Int16.ofInt config.getAuthTime

/-- What `main` does with a parsed config, once the acceptor is open. -/
def startUp (config : NginxConfig) : Option StartResult :=
  if config.getConfigPort = -1 then some .invalidPort
  else if (storedTimer config).toInt = -1 then some .invalidAuthTime
  else
    match config.getCredentials with
    | none => none
    | some credentials =>
        match initRequestHandlers ∅ config with
        | none => none
        | some (_, handlers) =>
            some (.serving (Int16.ofInt config.getConfigPort)
              (storedTimer config) credentials handlers)

def main (text : Text) : Option StartResult :=
  match parseText text with
  | some (.returned true config) => startUp config
  | some (.returned false _) => some .unableToParse
  | _ => none

/-! ## The timer -/

theorem storedTimer_toInt (config : NginxConfig) :
    (storedTimer config).toInt = config.getAuthTime.bmod 65536 := by
  rw [storedTimer, Int16.toInt_ofInt]

theorem storedTimer_toInt_eq_iff {config : NginxConfig}
    (hvalid : config.getAuthTime ≠ -1) :
    (storedTimer config).toInt = config.getAuthTime ↔
      config.getAuthTime ≤ 32767 := by
  have hrange : 0 ≤ config.getAuthTime ∧ config.getAuthTime ≤ 0xffff :=
    (NginxConfig.getNumber_inRange "timer".toList config).resolve_left hvalid
  rw [storedTimer_toInt, Int.bmod]
  constructor
  · intro heq
    split at heq <;> omega
  · intro hle
    split <;> omega

theorem isSessionExpired_eq_false {session : Session} {now seconds : ℤ}
    (htimer : session.authTime.toInt = seconds)
    (hnonneg : 0 ≤ now - session.lastAuthTime)
    (hle : now - session.lastAuthTime ≤ seconds * 1000000000) :
    (session.isSessionExpired now).1 = false := by
  have helapsed : session.elapsed now ≤ seconds := by
    rw [Session.elapsed, Session.nanosecondsPerSecond,
      Int.tdiv_eq_ediv_of_nonneg hnonneg]
    omega
  rw [Session.isSessionExpired, if_neg]
  rw [htimer]
  omega

theorem startUp_ne_invalidAuthTime {config : NginxConfig}
    (htimer : (storedTimer config).toInt ≠ -1) :
    startUp config ≠ some .invalidAuthTime := by
  rw [startUp, if_neg htimer]
  split
  next => simp
  next =>
    split
    next => simp
    next => split <;> simp

/-- A timer that `get_auth_time` returns is the one the server runs with, and
no session expires before it has run out, exactly up to the largest `short`. -/
theorem timer_kept_iff {config : NginxConfig}
    (hvalid : config.getAuthTime ≠ -1) :
    (startUp config ≠ some .invalidAuthTime ∧
      (storedTimer config).toInt = config.getAuthTime ∧
      ∀ (session : Session) (now : ℤ),
        session.authTime = storedTimer config →
        0 ≤ now - session.lastAuthTime →
        now - session.lastAuthTime ≤ config.getAuthTime * 1000000000 →
        (session.isSessionExpired now).1 = false) ↔
      config.getAuthTime ≤ 32767 := by
  rw [← storedTimer_toInt_eq_iff hvalid]
  constructor
  · exact fun hkept => hkept.2.1
  · intro htimer
    refine ⟨startUp_ne_invalidAuthTime (by rwa [htimer]), htimer,
      fun session now hauthTime hnonneg hle => ?_⟩
    apply isSessionExpired_eq_false _ hnonneg hle
    rw [hauthTime, htimer]

theorem timer_kept_iff_ten :
    let config : NginxConfig := [.simple ["timer".toList, "10".toList]]
    (startUp config ≠ some .invalidAuthTime ∧
      (storedTimer config).toInt = config.getAuthTime ∧
      ∀ (session : Session) (now : ℤ),
        session.authTime = storedTimer config →
        0 ≤ now - session.lastAuthTime →
        now - session.lastAuthTime ≤ config.getAuthTime * 1000000000 →
        (session.isSessionExpired now).1 = false) ↔
      config.getAuthTime ≤ 32767 :=
  timer_kept_iff (by decide +kernel)

theorem not_timer_kept :
    ¬ ∀ (config : NginxConfig) (session : Session) (now : ℤ),
      config.getAuthTime ≠ -1 → session.authTime = storedTimer config →
      0 ≤ now - session.lastAuthTime →
      now - session.lastAuthTime ≤ config.getAuthTime * 1000000000 →
      (session.isSessionExpired now).1 = false := by
  intro hclaim
  let config : NginxConfig := [.simple ["timer".toList, "40000".toList]]
  have hkept := hclaim config (.make ∅ (storedTimer config) 0) 0
    (by decide +kernel) rfl (by decide +kernel) (by decide +kernel)
  have hexpired : (Session.isSessionExpired
      (.make ∅ (storedTimer config) 0) 0).1 = true := by
    decide +kernel
  rw [hexpired] at hkept
  cases hkept

/-! ## Missing blocks and tokens -/

/-- After any text that parses, the start-up follows no null pointer and reads
no missing token exactly when the port or the timer ends it first, or the first
`credentials` statement has a block and the `server` block is complete. -/
theorem startUp_defined_iff {text : Text} {config : NginxConfig}
    (hparse : parseText text = some (.returned true config)) :
    startUp config ≠ none ↔
      config.getConfigPort = -1 ∨ (storedTimer config).toInt = -1 ∨
        CredentialsGuarded config ∧
          (∀ statement, config.find? isServer = some statement →
            statement.childBlock ≠ none) ∧
          ∀ statement ∈ locations config, Complete statement := by
  obtain ⟨w, hderives⟩ := parse_true_derives hparse
  have hwords := hderives.wellWorded
  have hdispatchable : Dispatchable config ↔
      (∀ statement, config.find? isServer = some statement →
        statement.childBlock ≠ none) ∧
        ∀ statement ∈ locations config, Complete statement :=
    ⟨fun h => ⟨h.server, h.location⟩, fun h => ⟨hwords, h.1, h.2⟩⟩
  rw [← hdispatchable, ← getCredentials_ne_none_iff hwords,
    ← initRequestHandlers_ne_none_iff hwords, startUp]
  by_cases hport : config.getConfigPort = -1
  · simp [hport]
  · by_cases htimer : (storedTimer config).toInt = -1
    · simp [hport, htimer]
    · simp only [hport, htimer, if_false, false_or]
      cases config.getCredentials with
      | none => simp
      | some credentials =>
          cases initRequestHandlers ∅ config with
          | none => simp
          | some result => simp

theorem startUp_defined_iff_server :
    let config : NginxConfig :=
      [.simple ["port".toList, "80".toList],
        .simple ["timer".toList, "10".toList],
        .block ["server".toList]
          [.block ["location".toList, ['/'], "EchoHandler".toList] []]]
    startUp config ≠ none ↔
      config.getConfigPort = -1 ∨ (storedTimer config).toInt = -1 ∨
        CredentialsGuarded config ∧
          (∀ statement, config.find? isServer = some statement →
            statement.childBlock ≠ none) ∧
          ∀ statement ∈ locations config, Complete statement := by
  have hparse : parseText
      "port 80; timer 10; server \x7b location / EchoHandler \x7b\x7d \x7d".toList =
        some (.returned true
          [.simple ["port".toList, "80".toList],
            .simple ["timer".toList, "10".toList],
            .block ["server".toList]
              [.block ["location".toList, ['/'], "EchoHandler".toList] []]]) := by
    rfl
  exact startUp_defined_iff hparse

theorem not_startUp_defined :
    ¬ ∀ (text : Text) (config : NginxConfig),
        parseText text = some (.returned true config) →
          startUp config ≠ none := by
  intro hclaim
  have hparse : parseText "port 80; timer 10; credentials;".toList =
      some (.returned true
        [.simple ["port".toList, "80".toList],
          .simple ["timer".toList, "10".toList],
          .simple ["credentials".toList]]) := by
    rfl
  have hundefined : startUp
      [.simple ["port".toList, "80".toList],
        .simple ["timer".toList, "10".toList],
        .simple ["credentials".toList]] = none := by
    rfl
  exact hclaim _ _ hparse hundefined

end Swifties
