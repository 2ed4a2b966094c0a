import WgNx.SessionCalls

/-!
What a caller may conclude from the result of `wg_connect`.

The loop shares one error variable with `wg_handshake_init`, which always sets
it to `WG_OK`.  An attempt is hollow when it lets that value through although
nothing was installed in the legacy session; the call keeps its promise exactly
when it meets no hollow attempt.
-/

namespace WgNx.ConnectOutcome

open WgNx.ByteLayout
open WgNx.CryptoPrimitives
open WgNx.NoiseHandshake
open WgNx.OutputMachine
open WgNx.RetryLoop
open WgNx.SessionCalls
open WgNx.TransportReceive
open WgNx.TransportSend
open WgNx.TunnelSetup
open WgNx.TunnelState
open WgNx.WireMessages

variable {P : Primitives}

section Iteration

/-- A session was installed as the legacy one, and is the one a tunnel holds. -/
def Installed (tun : WgTunnel) (events : List Event) : Prop :=
  tun.session.valid = true ∧ tun.session.rekeyInProgress = false ∧
    ∃ sess, Event.established .legacy sess ∈ events ∧
      tun.session.sendingKey = sess.sendingKey ∧
      tun.session.receivingKey = sess.receivingKey

theorem Installed.of_core {a b : WgTunnel} {events : List Event}
    (h : Installed a events) (hcore : b.session.core = a.session.core) :
    Installed b events := by
  obtain ⟨hvalid, hrekey, sess, hmem, hsend, hrecv⟩ := h
  refine ⟨?_, ?_, sess, hmem, ?_, ?_⟩
  · exact (congrArg WgSession.valid hcore).trans hvalid
  · exact (congrArg WgSession.rekeyInProgress hcore).trans hrekey
  · exact (congrArg WgSession.sendingKey hcore).trans hsend
  · exact (congrArg WgSession.receivingKey hcore).trans hrecv

theorem Installed.mono {tun : WgTunnel} {events events' : List Event}
    (h : Installed tun events) (hsub : ∀ e ∈ events, e ∈ events') :
    Installed tun events' := by
  obtain ⟨hvalid, hrekey, sess, hmem, hkeys⟩ := h
  exact ⟨hvalid, hrekey, sess, hsub _ hmem, hkeys⟩

theorem session_followUp (tun : WgTunnel) (now : UInt64) :
    (followUp P tun now).1.session = tun.session := by
  unfold followUp
  split <;> rfl

theorem session_dropExpired (tun : WgTunnel) (ref : SessionRef) :
    (dropExpired tun ref).session = tun.session := by
  cases ref <;> rfl

/-- An INIT is accepted for the legacy session or for a table entry, in which
case the legacy session is untouched. -/
theorem InitCase.legacy_or_same {P : Primitives} {tun tun₁ : WgTunnel} {msg : WgHandshakeInit}
    {d : RespDraws} {events : List Event} (h : InitCase P tun msg d (.ok, tun₁, events)) :
    Installed tun₁ events ∨
      tun₁.session = tun.session ∧ ∃ i sess, Event.established (.peer i) sess ∈ events := by
  cases h with
  | rejected _ _ herr _ => exact absurd rfl herr
  | legacy decryptedStatic response keys hfind =>
      exact .inl ⟨rfl, rfl, _, by simp, rfl, rfl⟩
  | peer i response keys hi =>
      exact .inr ⟨rfl, i, _, List.mem_cons_of_mem _ (List.mem_cons_self ..)⟩

/-- One iteration of the receive loop leaves the legacy session as it was, or
installs one. -/
theorem iteration_legacy (tun : WgTunnel) (inp : RecvInput) :
    (recvThreadIteration P tun inp).1.session.core = tun.session.core ∨
      Installed (recvThreadIteration P tun inp).1 (recvThreadIteration P tun inp).2 := by
  generalize hout : recvThreadIteration P tun inp = out
  have hcase := recvThreadIteration_cases P tun inp
  rw [hout] at hcase
  cases hcase with
  | quiet tun' hsame => exact .inl (congrArg WgSession.core hsame.session)
  | transport buffer received src out hresult hcase =>
      have hnote := (sameSessions_noteSource tun src).session
      rcases hcase.received.core_sessions with hcore | ⟨ref, -, hdropped⟩
      · exact .inl ((hcore .legacy).trans (congrArg WgSession.core hnote))
      · left
        rw [hdropped, session_dropExpired, hnote]
  | peerResponse src i out hi hcase =>
      have hnote := (sameSessions_noteSource tun src).session
      left
      cases hcase <;> exact congrArg WgSession.core hnote
  | init src msg tun₁ events hcase =>
      have hnote := (sameSessions_noteSource tun src).session
      rcases InitCase.legacy_or_same hcase with hinstalled | ⟨hsame, -⟩
      · right
        apply (hinstalled.mono fun e he => List.mem_append_left _ he).of_core
        rw [session_followUp]
      · left
        rw [session_followUp, hsame, hnote]

theorem iteration_sealed_valid (tun : WgTunnel) (inp : RecvInput) {ref : SessionRef}
    {sess : WgSession} {now : UInt64}
    (h : Event.sealed ref sess now ∈ (recvThreadIteration P tun inp).2) :
    sess.valid = true := by
  generalize hout : recvThreadIteration P tun inp = out at h
  have hcase := recvThreadIteration_cases P tun inp
  rw [hout] at hcase
  cases hcase with
  | quiet tun' hsame => cases h
  | transport buffer received src out hresult hcase =>
      obtain ⟨ref', plaintext, -, -, heq⟩ := hcase.events h
      cases heq
  | peerResponse src i out hi hcase =>
      cases hcase with
      | refused => cases h
      | badTag => cases h
      | installed keys remoteIndex sess' hsess => simp at h
  | init src msg tun₁ events hcase =>
      rcases List.mem_append.mp h with hinit | hfollow
      · cases hcase with
        | rejected _ _ herr _ => exact absurd rfl herr
        | legacy decryptedStatic response keys hfind => simp at hinit
        | peer i response keys hi => simp at hinit
      · unfold followUp at hfollow
        split at hfollow
        · cases hfollow
        · rename_i i hfirst
          have hvalid := PeerTable.find_get hfirst
          simp only [wgSendKeepaliveToPeer, List.mem_cons, Event.sealed.injEq] at hfollow
          rcases hfollow with ⟨-, rfl, -⟩ | hsent
          · simp only [Bool.and_eq_true] at hvalid
            exact hvalid.2
          · simp at hsent

end Iteration

section Wait

/-- While a caller waits, the pending flag of the legacy session stays set unless
a session is installed. -/
theorem background_legacy (tun : WgTunnel) (inputs : List RecvInput)
    (h : tun.session.rekeyInProgress = true) :
    (background P tun inputs).1.session.rekeyInProgress = true ∨
      Installed (background P tun inputs).1 (background P tun inputs).2 := by
  unfold background
  split
  · have hstep : ∀ s log inp,
        (s.session.rekeyInProgress = true ∨ Installed s log) → True →
        ((recvThreadIteration P s inp).1.session.rekeyInProgress = true ∨
          Installed (recvThreadIteration P s inp).1
            (log ++ (recvThreadIteration P s inp).2)) := by
      intro s log inp hinv _
      rcases @iteration_legacy P s inp with hcore | hinstalled
      · rcases hinv with hrekey | hinv
        · exact .inl ((congrArg WgSession.rekeyInProgress hcore).trans hrekey)
        · exact .inr ((hinv.mono fun e he => List.mem_append_left _ he).of_core hcore)
      · exact .inr (hinstalled.mono fun e he => List.mem_append_right _ he)
    have hinit : tun.session.rekeyInProgress = true ∨ Installed tun [] := .inl h
    simpa using run_invariant (recvThreadIteration P) hstep hinit (allSteps_true _ tun inputs)
  · exact .inl h

theorem background_sealed_valid (tun : WgTunnel) (inputs : List RecvInput)
    {ref : SessionRef} {sess : WgSession} {now : UInt64}
    (h : Event.sealed ref sess now ∈ (background P tun inputs).2) : sess.valid = true := by
  have hstep : ∀ (s : WgTunnel) (log : List Event) (inp : RecvInput),
      (∀ ref sess now, Event.sealed ref sess now ∈ log → sess.valid = true) → True →
      ∀ ref sess now,
        Event.sealed ref sess now ∈ log ++ (recvThreadIteration P s inp).2 →
          sess.valid = true := by
    intro s log inp hlog _ ref sess now hmem
    rcases List.mem_append.mp hmem with hold | hnew
    · exact hlog ref sess now hold
    · exact iteration_sealed_valid s inp hnew
  unfold background at h
  split at h
  · have hinit : ∀ (ref : SessionRef) (sess : WgSession) (now : UInt64),
        Event.sealed ref sess now ∈ ([] : List Event) → sess.valid = true := by simp
    have hall := run_invariant (recvThreadIteration P) hstep hinit
      (allSteps_true _ tun inputs)
    exact hall ref sess now (by simpa using h)
  · cases h

end Wait

section Attempt

variable (P)

/-- The wait of an attempt that began in `tun`, and the events it saw. -/
def waited (env : ConnectEnv) (tun : WgTunnel) : WgTunnel × List Event :=
  background P { (beginAttempt P tun env.draws).1 with pendingCookie := false }
    env.background

def waitedTunnel (env : ConnectEnv) (tun : WgTunnel) : WgTunnel :=
  noteSource (waited P env tun).1 (SocketResult.src env.result)

def AnsweredByInit (env : ConnectEnv) (tun : WgTunnel) (msg : WgHandshakeInit) : Prop :=
  env.sent = true ∧ (waitedTunnel P env tun).pendingCookie = false ∧
    IsInit env.result msg

/-- Attempt `k` was answered by an INIT that a table entry took, or by one that
was rejected when no attempt is left, and the handshake of the legacy session is
still pending. -/
def Hollow (env : Nat → ConnectEnv) (k : Nat) (tun : WgTunnel) : Prop :=
  ∃ msg, AnsweredByInit P (env k) tun msg ∧
    (waitedTunnel P (env k) tun).session.rekeyInProgress = true ∧
    let passive := wgHandshakeInitProcess P (waitedTunnel P (env k) tun) msg (env k).resp
    (passive.1 ≠ .ok ∧ k + 1 = wgMaxTimerHandshakes) ∨
      (passive.1 = .ok ∧ ∃ i sess, Event.established (.peer i) sess ∈ passive.2.2)

variable {P}

theorem waitedTunnel_legacy (env : ConnectEnv) (tun : WgTunnel) :
    (waitedTunnel P env tun).session.rekeyInProgress = true ∨
      Installed (waitedTunnel P env tun) (waited P env tun).2 := by
  have hnote := sameSessions_noteSource (waited P env tun).1 (SocketResult.src env.result)
  have hpending : WgSession.rekeyInProgress
      { (beginAttempt P tun env.draws).1 with pendingCookie := false }.session = true := rfl
  rcases background_legacy (P := P) _ env.background hpending with hrekey | hinstalled
  · left
    rw [waitedTunnel, hnote.session]
    exact hrekey
  · exact .inr (hinstalled.of_core (congrArg WgSession.core hnote.session))

theorem connectAttempt_of_sent {env : Nat → ConnectEnv} {k : Nat} (tun : WgTunnel)
    (hsent : (env k).sent = true) :
    connectAttempt P env k tun =
      let ended := connectEnd P (waited P (env k) tun).1
        (beginAttempt P tun (env k).draws).2.1 (env k).result (env k).resp (env k).now
      (ended.1, ended.2.1,
        (beginAttempt P tun (env k).draws).2.2 ++ (waited P (env k) tun).2 ++
          ended.2.2) := by
  simp [connectAttempt, waited, hsent]

theorem connectEnd_of_init {env : ConnectEnv} {tun : WgTunnel} {msg : WgHandshakeInit}
    (h : AnsweredByInit P env tun msg) (state : WgHandshakeState) :
    connectEnd P (waited P env tun).1 state env.result env.resp env.now =
      (if (wgHandshakeInitProcess P (waitedTunnel P env tun) msg env.resp).1 = .ok then
          .stop .ok
        else .again .ok,
        (wgHandshakeInitProcess P (waitedTunnel P env tun) msg env.resp).2) := by
  obtain ⟨-, hcookie, buffer, received, src, hresult, hinit, rfl⟩ := h
  rw [waitedTunnel] at hcookie ⊢
  rw [hresult] at hcookie ⊢
  simp [connectEnd, connectDatagram, hcookie, hinit]

/-- An attempt that ends the loop with `WG_OK` is hollow or has installed the
legacy session. -/
theorem ends_ok_cases {env : Nat → ConnectEnv} {k : Nat} {tun tun' : WgTunnel}
    {events : List Event}
    (h : Ends (connectAttempt P env) wgMaxTimerHandshakes k tun .ok tun' events) :
    Hollow P env k tun ∨ Installed tun' events := by
  cases hsent : (env k).sent with
  | false => simp [Ends, connectAttempt, hsent] at h
  | true =>
      simp only [Ends, connectAttempt_of_sent tun hsent, Prod.mk.injEq] at h
      have hend := connectEnd_cases P (waited P (env k) tun).1
        (beginAttempt P tun (env k).draws).2.1 (env k).result (env k).resp (env k).now
      change ConnectEndCase P (waitedTunnel P (env k) tun) _ _ _ _ _ at hend
      generalize connectEnd P (waited P (env k) tun).1
        (beginAttempt P tun (env k).draws).2.1 (env k).result (env k).resp (env k).now =
          ended at h hend
      -- Where the attempt leaves the legacy session alone, what the wait left
      -- there decides.
      have hkept : ∀ (tun₁ : WgTunnel) (events₁ : List Event),
          tun₁.session = (waitedTunnel P (env k) tun).session →
          (waitedTunnel P (env k) tun).session.rekeyInProgress = true ∨
            Installed tun₁ ((beginAttempt P tun (env k).draws).2.2 ++
              (waited P (env k) tun).2 ++ events₁) := by
        intro tun₁ events₁ hsame
        rcases @waitedTunnel_legacy P (env k) tun with hrekey | hinstalled
        · exact .inl hrekey
        · right
          apply (hinstalled.mono _).of_core (congrArg WgSession.core hsame)
          intro e he
          exact List.mem_append_left _ (List.mem_append_right _ he)
      cases hend with
      | retried err tun₁ herr hsame hinit =>
          rcases h with ⟨hverdict, -⟩ | ⟨-, hverdict, -⟩
          · cases hverdict
          · cases hverdict
            exact absurd rfl herr
      | response msg err tun₁ events₁ hcase hinit =>
          cases hcase with
          | refused => simp at h
          | badTag hindex => simp at h
          | installed keys sess hindex hsess =>
              simp only [if_true, reduceCtorEq, false_and, and_false, or_false, true_and] at h
              obtain ⟨rfl, rfl⟩ := h
              subst hsess
              refine .inr ⟨rfl, rfl, _, List.mem_append_right _ (List.mem_singleton_self _),
                rfl, rfl⟩
      | passive msg hcookie hinit =>
          have hanswer : AnsweredByInit P (env k) tun msg := ⟨hsent, hcookie, hinit⟩
          have hcase := wgHandshakeInitProcess_cases P (waitedTunnel P (env k) tun) msg
            (env k).resp
          rcases hout : wgHandshakeInitProcess P (waitedTunnel P (env k) tun) msg
            (env k).resp with ⟨err, tun₁, events₁⟩
          rw [hout] at h hcase
          dsimp only at h
          by_cases hok : err = .ok
          · subst hok
            simp only [if_true, reduceCtorEq, false_and, and_false, or_false, true_and] at h
            obtain ⟨rfl, rfl⟩ := h
            rcases InitCase.legacy_or_same hcase with hinstalled | ⟨hsame, hpeer⟩
            · exact .inr (hinstalled.mono fun e he => List.mem_append_right _ he)
            · rcases hkept tun₁ events₁ hsame with hrekey | hinstalled
              · refine .inl ⟨msg, hanswer, hrekey, .inr ?_⟩
                rw [hout]
                exact ⟨rfl, hpeer⟩
              · exact .inr hinstalled
          · simp only [hok, if_false, reduceCtorEq, false_and, false_or, true_and] at h
            obtain ⟨hlast, rfl, rfl⟩ := h
            cases hcase with
            | rejected _ _ herr hsame =>
                rcases hkept tun₁ [] hsame.session with hrekey | hinstalled
                · refine .inl ⟨msg, hanswer, hrekey, .inl ?_⟩
                  rw [hout]
                  exact ⟨hok, hlast⟩
                · exact .inr hinstalled
            | legacy => exact absurd rfl hok
            | peer => exact absurd rfl hok

theorem ends_of_hollow {env : Nat → ConnectEnv} {k : Nat} {tun : WgTunnel}
    (h : Hollow P env k tun) :
    ∃ tun' events,
      Ends (connectAttempt P env) wgMaxTimerHandshakes k tun .ok tun' events ∧
      tun'.session.rekeyInProgress = true := by
  obtain ⟨msg, hmsg, hrekey, hcases⟩ := h
  have hcase := wgHandshakeInitProcess_cases P (waitedTunnel P (env k) tun) msg (env k).resp
  simp only [Ends, connectAttempt_of_sent tun hmsg.1, connectEnd_of_init hmsg]
  generalize wgHandshakeInitProcess P (waitedTunnel P (env k) tun) msg (env k).resp = out
    at hcases hcase
  refine ⟨out.2.1, (beginAttempt P tun (env k).draws).2.2 ++ (waited P (env k) tun).2 ++
    out.2.2, ?_, ?_⟩
  · rcases hcases with ⟨hfail, hlast⟩ | ⟨hok, -⟩
    · exact .inr ⟨hlast, by simp [hfail]⟩
    · exact .inl (by simp [hok])
  · cases hcase with
    | rejected _ _ herr hsame =>
        rw [hsame.session]
        exact hrekey
    | legacy decryptedStatic response keys hfind =>
        rcases hcases with ⟨hfail, -⟩ | ⟨-, i, sess, hmem⟩
        · exact absurd rfl hfail
        · simp [respondLegacy] at hmem
    | peer i response keys hi => exact hrekey

theorem attempt_sealed_valid {env : Nat → ConnectEnv} {k : Nat} {tun : WgTunnel}
    {ref : SessionRef} {sess : WgSession} {now : UInt64}
    (h : Event.sealed ref sess now ∈ (connectAttempt P env k tun).2.2) :
    sess.valid = true := by
  have hbegin : Event.sealed ref sess now ∉ (beginAttempt P tun (env k).draws).2.2 := by
    simp [beginAttempt]
  cases hsent : (env k).sent with
  | false =>
      simp only [connectAttempt, hsent, Bool.not_false, if_true] at h
      exact absurd h hbegin
  | true =>
      rw [connectAttempt_of_sent tun hsent] at h
      rcases List.mem_append.mp h with hwait | hmem
      · rcases List.mem_append.mp hwait with hbegun | hwait
        · exact absurd hbegun hbegin
        · exact background_sealed_valid _ _ hwait
      · have hend := connectEnd_cases P (waited P (env k) tun).1
          (beginAttempt P tun (env k).draws).2.1 (env k).result (env k).resp (env k).now
        generalize connectEnd P (waited P (env k) tun).1
          (beginAttempt P tun (env k).draws).2.1 (env k).result (env k).resp (env k).now =
            ended at hmem hend
        cases hend with
        | retried => cases hmem
        | response msg err tun₁ events₁ hcase hinit =>
            cases hcase with
            | refused => cases hmem
            | badTag hindex => cases hmem
            | installed keys sess hindex hsess => simp at hmem
        | passive msg hcookie hinit =>
            have hcase := wgHandshakeInitProcess_cases P
              (noteSource (waited P (env k) tun).1 (SocketResult.src (env k).result)) msg
              (env k).resp
            dsimp only at hmem
            generalize wgHandshakeInitProcess P
              (noteSource (waited P (env k) tun).1 (SocketResult.src (env k).result)) msg
              (env k).resp = out at hmem hcase
            cases hcase with
            | rejected => cases hmem
            | legacy => simp [respondLegacy] at hmem
            | peer => simp [respondPeer] at hmem

theorem reaches_sealed_valid {env : Nat → ConnectEnv} {k : Nat} {tun₀ tun : WgTunnel}
    {events : List Event} (h : Reaches (connectAttempt P env) 0 tun₀ k tun events)
    {ref : SessionRef} {sess : WgSession} {now : UInt64}
    (hmem : Event.sealed ref sess now ∈ events) : sess.valid = true := by
  induction h with
  | start => cases hmem
  | next hreach hagain ih =>
      rcases List.mem_append.mp hmem with hold | hnew
      · exact ih hold
      · apply attempt_sealed_valid (P := P)
        rw [hagain]
        exact hnew

end Attempt

/-- The promise of `wg_connect`: success means that a handshake completed and the
session has its keys; once a handshake was started none is pending afterwards;
and no keepalive went out under a session that was not valid. -/
structure ConnectSound (started : Prop) (out : WgError × WgTunnel × List Event) :
    Prop where
  completed : out.1 = .ok →
    out.2.1.session.valid = true ∧
      ∃ sess, Event.established .legacy sess ∈ out.2.2 ∧
        out.2.1.session.sendingKey = sess.sendingKey ∧
        out.2.1.session.receivingKey = sess.receivingKey
  released : started → out.2.1.session.rekeyInProgress = false
  keyed : ∀ ref sess now, Event.sealed ref sess now ∈ out.2.2 → sess.valid = true

theorem wgConnect_ends {tun : WgTunnel} {fd : Int} (env : Nat → ConnectEnv) (now : UInt64)
    (hopen : ¬ (openSocket tun fd).socketFd < 0) :
    ∃ k s out err tun' events,
      Reaches (connectAttempt P env) 0 (openSocket tun fd) k s out ∧
      k < wgMaxTimerHandshakes ∧
      Ends (connectAttempt P env) wgMaxTimerHandshakes k s err tun' events ∧
      wgConnect P tun fd env now =
        ((connectFinish P err tun' now).1, (connectFinish P err tun' now).2.1,
          out ++ events ++ (connectFinish P err tun' now).2.2) := by
  obtain ⟨k, s, out, err, tun', events, hreach, hk, hends, hretry⟩ :=
    @exists_ends _ _ _ (connectAttempt P env) wgMaxTimerHandshakes (by decide) 0
      WgError.timeout (openSocket tun fd)
  rw [Nat.zero_add] at hk hends
  refine ⟨k, s, out, err, tun', events, hreach, hk, hends, ?_⟩
  simp [wgConnect, hopen, hretry]

/-- `wg_connect` keeps its promise exactly when it meets no hollow attempt. -/
theorem connect_sound_iff (P : Primitives) (tun : WgTunnel) (fd : Int)
    (env : Nat → ConnectEnv) (now : UInt64) :
    ConnectSound (0 ≤ (openSocket tun fd).socketFd) (wgConnect P tun fd env now) ↔
      ∀ k s out, 0 ≤ (openSocket tun fd).socketFd → k < wgMaxTimerHandshakes →
        Reaches (connectAttempt P env) 0 (openSocket tun fd) k s out →
        ¬ Hollow P env k s := by
  constructor
  · intro hsound k s out hfd hk hreach hhollow
    obtain ⟨tun', events, hends, hrekey⟩ := ends_of_hollow hhollow
    have hretry := retry_of_ends (n := wgMaxTimerHandshakes) hreach (by omega)
      (by rw [Nat.zero_add]; exact hends) WgError.timeout
    have hreleased := hsound.released hfd
    have hopen : ¬ (openSocket tun fd).socketFd < 0 := by omega
    simp [wgConnect, hopen, hretry, connectFinish, wgSendKeepalive, bumpCounter, hrekey]
      at hreleased
  · intro hnone
    by_cases hopen : (openSocket tun fd).socketFd < 0
    · have hout : wgConnect P tun fd env now = (.socket, openSocket tun fd, []) := by
        simp [wgConnect, hopen]
      rw [hout]
      refine ⟨fun h => ?_, fun h => ?_, fun _ _ _ h => ?_⟩
      · cases h
      · omega
      · cases h
    · obtain ⟨k, s, out, err, tun', events, hreach, hk, hends, hout⟩ :=
        wgConnect_ends (P := P) env now hopen
      have hloop : ∀ ref sess now, Event.sealed ref sess now ∈ out ++ events →
          sess.valid = true := by
        intro ref sess now hmem
        rcases List.mem_append.mp hmem with hold | hnew
        · exact reaches_sealed_valid hreach hold
        · rw [← hends.outputs] at hnew
          exact attempt_sealed_valid hnew
      rw [hout]
      by_cases herr : err = .ok
      · subst herr
        have hinstalled : Installed tun' events := by
          rcases ends_ok_cases hends with hhollow | hinstalled
          · exact absurd hhollow (hnone k s out (by omega) hk hreach)
          · exact hinstalled
        obtain ⟨hvalid, hrekey, sess, hmem, hkeys⟩ := hinstalled
        simp only [connectFinish, ne_eq, not_true_eq_false, if_false, wgSendKeepalive]
        refine ⟨fun _ => ⟨hvalid, sess, ?_, hkeys⟩, fun _ => hrekey, fun ref sess' now' h => ?_⟩
        · exact List.mem_append_left _ (List.mem_append_right _ hmem)
        · rcases List.mem_append.mp h with hloop' | hclosing
          · exact hloop ref sess' now' hloop'
          · simp only [List.mem_cons, Event.sealed.injEq] at hclosing
            rcases hclosing with ⟨-, rfl, -⟩ | hsent
            · exact hvalid
            · simp at hsent
      · simp only [connectFinish, ne_eq, herr, not_false_eq_true, if_true, List.append_nil]
        exact ⟨fun h => absurd h herr, fun _ => rfl, hloop⟩

def tunnelWithEntry : WgTunnel :=
  wgAddPeer
    (initialTunnel additive
      ⟨Vector.replicate 32 3, 0, Vector.replicate 32 5, 25, zeroKey, false⟩ ⟨0, 51820⟩)
    (sampleKey 7) (Vector.replicate 36 0) 1

def answeredByEntry : ConnectEnv where
  draws := ⟨sampleKey 13, 19, Vector.replicate 12 2, 100⟩
  sent := true
  background := []
  result := .ofBytes (sampleInit 7 3 openingDraws).toBytes none
  resp := ⟨sampleKey 15, 23, 200⟩
  now := 300

/-- The call succeeds, but the legacy session was never valid, its handshake is
still pending, and the closing keepalive was sealed under the zero key. -/
theorem connect_answered_by_entry :
    let out := wgConnect additive tunnelWithEntry 4 (fun _ => answeredByEntry) 400
    out.1 = .ok ∧ out.2.1.session.valid = false ∧
      out.2.1.session.rekeyInProgress = true ∧
      ∃ sess, Event.sealed .legacy sess 400 ∈ out.2.2 ∧ sess.valid = false ∧
        sess.sendingKey = zeroKey := by
  intro out
  let sess : WgSession := { WgSession.zeroed with localIndex := 19, rekeyInProgress := true }
  have hout : out.1 = .ok ∧ out.2.1.session.valid = false ∧
      out.2.1.session.rekeyInProgress = true ∧ Event.sealed .legacy sess 400 ∈ out.2.2 := by
    decide +kernel
  obtain ⟨hok, hvalid, hrekey, hsealed⟩ := hout
  exact ⟨hok, hvalid, hrekey, sess, hsealed, rfl, rfl⟩

end WgNx.ConnectOutcome
