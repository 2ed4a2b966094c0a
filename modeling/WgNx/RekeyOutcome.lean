import WgNx.ConnectOutcome

/-!
What `wg_rekey` leaves behind.

A rekey runs against an established session while the receive thread hands it
responses and cookie replies.  Attempts move the indices of the live session;
everything else about it stays put until a response is accepted.
-/

namespace WgNx.RekeyOutcome

open WgNx.ByteLayout
open WgNx.CryptoPrimitives
open WgNx.NoiseHandshake
open WgNx.OutputMachine
open WgNx.RetryLoop
open WgNx.SessionCalls
open WgNx.TransportReceive
open WgNx.TransportSend
open WgNx.TunnelSetup
open WgNx.TunnelState
open WgNx.WireMessages

variable {P : Primitives}

/-- A receive iteration that meets a response, a cookie reply or nothing. -/
def IsAnswer (inp : RecvInput) : Prop :=
  ∀ buffer received src, inp.result = .datagram buffer received src →
    getType buffer = wgMsgHandshakeResponse ∨ getType buffer = wgMsgCookieReply

section Wait

theorem iteration_of_answer {tun : WgTunnel} {inp : RecvInput} (hanswer : IsAnswer inp)
    (hpending : tun.session.rekeyInProgress = true) :
    (recvThreadIteration P tun inp).1.SameSessions tun ∧
      (recvThreadIteration P tun inp).2 = [] := by
  unfold recvThreadIteration
  cases hresult : inp.result with
  | timeout => exact ⟨⟨rfl, rfl, rfl⟩, rfl⟩
  | error err => exact ⟨⟨rfl, rfl, rfl⟩, rfl⟩
  | datagram buffer received src =>
      have hnote := sameSessions_noteSource tun src
      have hpending' : (noteSource tun src).session.rekeyInProgress = true := by
        rw [hnote.session, hpending]
      have htypes := hanswer buffer received src hresult
      have hcase := recvDatagram_cases P (noteSource tun src) buffer received inp.slot inp.draws
        inp.now
      dsimp only
      generalize recvDatagram P (noteSource tun src) buffer received inp.slot inp.draws inp.now =
        out at hcase ⊢
      cases hcase with
      | dropped hinit => exact ⟨hnote, rfl⟩
      | transport htype =>
          rw [htype] at htypes
          exact absurd htypes (by decide)
      | response htype =>
          unfold recvResponse
          rw [if_pos hpending']
          split
          · exact ⟨⟨hnote.session, hnote.prevSession, hnote.peers⟩, rfl⟩
          · exact ⟨hnote, rfl⟩
      | cookie htype =>
          obtain ⟨hsame, hquiet⟩ := recvCookieReply_quiet P (noteSource tun src) buffer received
            inp.now
          exact ⟨hsame.trans hnote, hquiet⟩
      | init htype hlong =>
          rw [htype] at htypes
          exact absurd htypes (by decide)

theorem background_of_answers (tun : WgTunnel) {inputs : List RecvInput}
    (hanswers : ∀ inp ∈ inputs, IsAnswer inp)
    (hpending : tun.session.rekeyInProgress = true) :
    (background P tun inputs).1.SameSessions tun ∧ (background P tun inputs).2 = [] := by
  unfold background
  split
  · have hrun : ∀ s : WgTunnel, s.session.rekeyInProgress = true →
        (run (recvThreadIteration P) s inputs).1.SameSessions s ∧
          (run (recvThreadIteration P) s inputs).2 = [] := by
      induction inputs with
      | nil =>
          intro s _
          exact ⟨⟨rfl, rfl, rfl⟩, rfl⟩
      | cons inp rest ih =>
          intro s hs
          obtain ⟨hsame, hnone⟩ := iteration_of_answer (P := P)
            (hanswers inp (List.mem_cons_self ..)) hs
          have hs' : (recvThreadIteration P s inp).1.session.rekeyInProgress = true := by
            rw [hsame.session, hs]
          obtain ⟨hsame', hnone'⟩ :=
            ih (fun inp hinp => hanswers inp (List.mem_cons_of_mem _ hinp)) _ hs'
          refine ⟨hsame'.trans hsame, ?_⟩
          rw [run_cons_outputs, hnone, hnone', List.append_nil]
    exact hrun tun hpending
  · exact ⟨⟨rfl, rfl, rfl⟩, rfl⟩

end Wait

section Attempt

variable (P)

def waited (env : RekeyEnv) (tun : WgTunnel) : WgTunnel × List Event :=
  background P
    (beginAttempt P { tun with pendingResponse := [], pendingCookie := false } env.draws).1
    env.background

variable {P}

theorem waited_sessions (env : RekeyEnv) (tun : WgTunnel)
    (hanswers : ∀ inp ∈ env.background, IsAnswer inp) :
    (waited P env tun).1.session =
        { tun.session with
          oldLocalIndex := tun.session.localIndex
          localIndex := env.draws.index
          rekeyInProgress := true } ∧
      (waited P env tun).1.prevSession = tun.prevSession ∧ (waited P env tun).2 = [] := by
  obtain ⟨hsame, hnone⟩ := background_of_answers (P := P)
    (beginAttempt P { tun with pendingResponse := [], pendingCookie := false } env.draws).1
    hanswers rfl
  exact ⟨hsame.session, hsame.prevSession, hnone⟩

inductive RekeyCase (env : RekeyEnv) (tun : WgTunnel) :
    Verdict WgError × WgTunnel × List Event → Prop
  | unsent (tun' : WgTunnel) (events : List Event)
      (hsession : tun'.session =
        { tun.session with
          oldLocalIndex := tun.session.localIndex
          localIndex := env.draws.index
          rekeyInProgress := true })
      (hprev : tun'.prevSession = tun.prevSession)
      (hevents : ∀ sess, Event.established .legacy sess ∉ events) :
      RekeyCase env tun (.stop .socket, tun', events)
  | retried (err : WgError) (remoteIndex : UInt32) (tun' : WgTunnel) (events : List Event)
      (hok : err = .ok → env.sent = true ∧ (waited P env tun).1.pendingCookie = true)
      (hremote : err ≠ .decrypt → remoteIndex = tun.session.remoteIndex)
      (hsession : tun'.session =
        { tun.session with
          oldLocalIndex := tun.session.localIndex
          localIndex := env.draws.index
          remoteIndex := remoteIndex
          rekeyInProgress := true })
      (hprev : tun'.prevSession = tun.prevSession)
      (hevents : ∀ sess, Event.established .legacy sess ∉ events) :
      RekeyCase env tun (.again err, tun', events)
  | accepted (remoteIndex : UInt32) (keys : Hash × Hash) (sess : WgSession)
      (tun' : WgTunnel) (events : List Event)
      (hsess : sess =
        { completedSession
            { tun.session with
              oldLocalIndex := tun.session.localIndex
              localIndex := env.draws.index
              remoteIndex := remoteIndex } keys env.now with
          rekeyInProgress := false })
      (hsession : tun'.session = sess)
      (hprev : tun'.prevSession =
        if tun.session.valid then
          { tun.session with
            oldLocalIndex := tun.session.localIndex
            remoteIndex := remoteIndex
            rekeyInProgress := true }
        else tun.prevSession)
      (hevents : ∀ sess', Event.established .legacy sess' ∈ events ↔ sess' = sess) :
      RekeyCase env tun (.stop .ok, tun', events)

theorem rekeyAttempt_cases {env : Nat → RekeyEnv} (k : Nat) (tun : WgTunnel)
    (hanswers : ∀ inp ∈ (env k).background, IsAnswer inp) :
    RekeyCase (P := P) (env k) tun (rekeyAttempt P env k tun) := by
  have hbegin : ∀ sess, Event.established .legacy sess ∉
      (beginAttempt P { tun with pendingResponse := [], pendingCookie := false }
        (env k).draws).2.2 := by
    intro sess
    simp [beginAttempt]
  obtain ⟨hsession, hprev, hnone⟩ := waited_sessions (P := P) (env k) tun hanswers
  cases hsent : (env k).sent with
  | false =>
      simp only [rekeyAttempt, hsent, Bool.not_false, if_true]
      exact .unsent _ _ rfl rfl hbegin
  | true =>
      simp only [rekeyAttempt, hsent, Bool.not_true, Bool.false_eq_true, if_false]
      change RekeyCase (P := P) (env k) tun
        ((rekeyEnd P (waited P (env k) tun).1 _ (env k).now).1,
          (rekeyEnd P (waited P (env k) tun).1 _ (env k).now).2.1,
          _ ++ (waited P (env k) tun).2 ++
            (rekeyEnd P (waited P (env k) tun).1 _ (env k).now).2.2)
      rw [hnone, List.append_nil]
      unfold rekeyEnd
      split
      · rename_i hcookie
        refine .retried .ok _ _ _ (fun _ => ⟨hsent, hcookie⟩) (fun _ => rfl) hsession hprev ?_
        simpa using hbegin
      · split
        · refine .retried .timeout _ _ _ WgError.noConfusion (fun _ => rfl) hsession hprev ?_
          simpa using hbegin
        · split
          · refine .retried .handshake _ _ _ WgError.noConfusion (fun _ => rfl) hsession
              hprev ?_
            simpa using hbegin
          · dsimp only
            have hcase := wgHandshakeResponse_cases P (waited P (env k) tun).1
              (WgHandshakeResponse.ofBytes (waited P (env k) tun).1.pendingResponse)
              (beginAttempt P { tun with pendingResponse := [], pendingCookie := false }
                (env k).draws).2.1 (env k).now
            generalize wgHandshakeResponse P (waited P (env k) tun).1
              (WgHandshakeResponse.ofBytes (waited P (env k) tun).1.pendingResponse)
              (beginAttempt P { tun with pendingResponse := [], pendingCookie := false }
                (env k).draws).2.1 (env k).now = out at hcase ⊢
            obtain ⟨err, tun', state', events⟩ := out
            dsimp only at hcase ⊢
            cases hcase with
            | refused =>
                refine .retried .handshake _ _ _ WgError.noConfusion (fun _ => rfl) hsession
                  hprev ?_
                simpa using hbegin
            | badTag hindex =>
                refine .retried .decrypt
                  (WgHandshakeResponse.ofBytes
                    (waited P (env k) tun).1.pendingResponse).senderIndex _ _
                  WgError.noConfusion (fun h => absurd rfl h) ?_ hprev ?_
                · rw [hsession]
                · simpa using hbegin
            | installed keys sess hindex hsess =>
                rw [hsession] at hsess
                refine .accepted _ keys sess _ _ hsess rfl ?_ ?_
                · rw [hsession, hprev]
                · intro sess'
                  simp [beginAttempt]

end Attempt

section Loop

/-- No response that carried the index of its attempt failed authentication. -/
def NoBadTag (P : Primitives) (tun : WgTunnel) (env : Nat → RekeyEnv) : Prop :=
  ∀ k s out, Reaches (rekeyAttempt P env) 0 (rekeyStart tun) k s out →
    (rekeyAttempt P env k s).1 ≠ .again .decrypt

/-- What the attempts before the accepted one leave of the established session. -/
structure Pending (P : Primitives) (tun : WgTunnel) (env : Nat → RekeyEnv) (k : Nat)
    (s : WgTunnel) (events : List Event) : Prop where
  session : forgetIndices s.session = forgetIndices tun.session
  prevSession : s.prevSession = tun.prevSession
  first : k = 0 → s.session = tun.session
  remote : NoBadTag P tun env → s.session.remoteIndex = tun.session.remoteIndex
  events : ∀ sess, Event.established .legacy sess ∉ events

theorem reaches_pending {tun s : WgTunnel} {env : Nat → RekeyEnv} {k : Nat}
    {events : List Event} (hanswers : ∀ k, ∀ inp ∈ (env k).background, IsAnswer inp)
    (h : Reaches (rekeyAttempt P env) 0 (rekeyStart tun) k s events) :
    Pending P tun env k s events := by
  induction h with
  | start => exact ⟨rfl, rfl, fun _ => rfl, fun _ => rfl, by simp⟩
  | @next k s s' out out' e hreach hagain ih =>
      have hcase := rekeyAttempt_cases (P := P) k s (hanswers k)
      rw [hagain] at hcase
      cases hcase with
      | retried err remoteIndex tun' events hok hremote hsession hprev hevents =>
          refine ⟨?_, hprev.trans ih.prevSession, fun h => by omega, fun hnone => ?_, ?_⟩
          · rw [hsession]
            exact ih.session
          · have hne : e ≠ .decrypt := by
              rintro rfl
              exact hnone k s out hreach (by rw [hagain])
            rw [hsession]
            exact (hremote hne).trans (ih.remote hnone)
          · intro sess hmem
            rcases List.mem_append.mp hmem with hold | hnew
            · exact ih.events sess hold
            · exact hevents sess hnew

theorem wgRekey_ends (tun : WgTunnel) (env : Nat → RekeyEnv) (now : UInt64) :
    ∃ k s events err tun' events',
      Reaches (rekeyAttempt P env) 0 (rekeyStart tun) k s events ∧
      Ends (rekeyAttempt P env) wgMaxTimerHandshakes k s err tun' events' ∧
      wgRekey P tun env now =
        ((rekeyFinish P tun.session.localIndex err tun' now).1,
          (rekeyFinish P tun.session.localIndex err tun' now).2.1,
          events ++ events' ++
            (rekeyFinish P tun.session.localIndex err tun' now).2.2) := by
  obtain ⟨k, s, events, err, tun', events', hreach, -, hends, hretry⟩ :=
    @exists_ends _ _ _ (rekeyAttempt P env) wgMaxTimerHandshakes (by decide) 0
      WgError.timeout (rekeyStart tun)
  rw [Nat.zero_add] at hends
  refine ⟨k, s, events, err, tun', events', hreach, hends, ?_⟩
  simp only [wgRekey, hretry]

end Loop

section Outcome

/-- What a rekey of the session of `tun` has to leave behind: on success the
negotiated session, after the closing keepalive, and the former one in
`prev_session`; on failure the session as it was. -/
structure RekeySound (P : Primitives) (tun : WgTunnel) (env : Nat → RekeyEnv)
    (out : WgError × WgTunnel × List Event) : Prop where
  success : out.1 = .ok ↔ ∃ sess, Event.established .legacy sess ∈ out.2.2
  installed : ∀ sess, Event.established .legacy sess ∈ out.2.2 →
    out.2.1.session = bumpCounter sess ∧ sess.sendingCounter = 0 ∧
      sess.receivingCounter = 0 ∧ sess.rekeyInProgress = false
  former : out.1 = .ok → forgetIndices out.2.1.prevSession = forgetIndices tun.session
  formerIndex : (rekeyAttempt P env 0 (rekeyStart tun)).1 = .stop .ok →
    out.2.1.prevSession.localIndex = tun.session.localIndex
  kept : out.1 ≠ .ok →
    forgetIndices out.2.1.session = forgetIndices tun.session ∧
      out.2.1.session.localIndex = tun.session.localIndex ∧
      out.2.1.session.rekeyInProgress = false
  keptRemote : out.1 ≠ .ok → NoBadTag P tun env →
    out.2.1.session.remoteIndex = tun.session.remoteIndex

variable {tun s tun' : WgTunnel} {env : Nat → RekeyEnv} {k : Nat}
  {events events' : List Event} {err : WgError}

/-- A failed call leaves the session of the last attempt, with its index restored. -/
theorem rekeySound_of_failed (now : UInt64) (hpending : Pending P tun env k s events)
    (herr : err ≠ .ok) {remoteIndex : UInt32}
    (hremote : NoBadTag P tun env → remoteIndex = s.session.remoteIndex)
    (hsession : tun'.session =
      { s.session with
        oldLocalIndex := s.session.localIndex
        localIndex := (env k).draws.index
        remoteIndex := remoteIndex
        rekeyInProgress := true })
    (hevents : ∀ sess, Event.established .legacy sess ∉ events')
    (hfirst : (rekeyAttempt P env 0 (rekeyStart tun)).1 ≠ .stop .ok) :
    RekeySound P tun env
      ((rekeyFinish P tun.session.localIndex err tun' now).1,
        (rekeyFinish P tun.session.localIndex err tun' now).2.1,
        events ++ events' ++ (rekeyFinish P tun.session.localIndex err tun' now).2.2) := by
  have hnone : ∀ sess, Event.established .legacy sess ∉ events ++ events' := by
    intro sess hmem
    rcases List.mem_append.mp hmem with hold | hnew
    · exact hpending.events sess hold
    · exact hevents sess hnew
  simp only [rekeyFinish, ne_eq, herr, not_false_eq_true, if_true, List.append_nil]
  refine ⟨?_, ?_, fun h => absurd h herr, fun h => absurd h hfirst, fun _ => ?_,
    fun _ hbad => ?_⟩
  · constructor
    · exact fun h => absurd h herr
    · rintro ⟨sess, hmem⟩
      exact absurd hmem (hnone sess)
  · exact fun sess hmem => absurd hmem (hnone sess)
  · refine ⟨?_, rfl, rfl⟩
    rw [hsession]
    exact hpending.session
  · rw [hsession]
    exact (hremote hbad).trans (hpending.remote hbad)

theorem rekeySound_of_accepted (now : UInt64) (hvalid : tun.session.valid = true)
    (hpending : Pending P tun env k s events) {remoteIndex : UInt32} {keys : Hash × Hash}
    {sess : WgSession}
    (hsess : sess =
      { completedSession
          { s.session with
            oldLocalIndex := s.session.localIndex
            localIndex := (env k).draws.index
            remoteIndex := remoteIndex } keys (env k).now with
        rekeyInProgress := false })
    (hsession : tun'.session = sess)
    (hprev : tun'.prevSession =
      if s.session.valid then
        { s.session with
          oldLocalIndex := s.session.localIndex
          remoteIndex := remoteIndex
          rekeyInProgress := true }
      else s.prevSession)
    (hevents : ∀ sess', Event.established .legacy sess' ∈ events' ↔ sess' = sess)
    (hfirst : (rekeyAttempt P env 0 (rekeyStart tun)).1 = .stop .ok → k = 0) :
    RekeySound P tun env
      ((rekeyFinish P tun.session.localIndex .ok tun' now).1,
        (rekeyFinish P tun.session.localIndex .ok tun' now).2.1,
        events ++ events' ++ (rekeyFinish P tun.session.localIndex .ok tun' now).2.2) := by
  have hvalid' : s.session.valid = true :=
    (congrArg WgSession.valid hpending.session).trans hvalid
  rw [if_pos hvalid'] at hprev
  have hmem : ∀ sess', Event.established .legacy sess' ∈ events ++ events' ++
      (wgSendKeepalive P tun' now).2 ↔ sess' = sess := by
    intro sess'
    rw [List.mem_append, List.mem_append, hevents sess']
    simp [hpending.events sess', wgSendKeepalive]
  simp only [rekeyFinish, ne_eq, not_true_eq_false, if_false]
  refine ⟨?_, fun sess' h => ?_, fun _ => ?_, fun h => ?_, fun h => absurd rfl h,
    fun h => absurd rfl h⟩
  · simp only [hmem, exists_eq]
  · rw [(hmem sess').mp h]
    refine ⟨?_, ?_, ?_, ?_⟩
    · change bumpCounter tun'.session = _
      rw [hsession]
    · rw [hsess]
      rfl
    · rw [hsess]
      rfl
    · rw [hsess]
  · change forgetIndices tun'.prevSession = _
    rw [hprev]
    exact hpending.session
  · change tun'.prevSession.localIndex = _
    rw [hprev]
    change s.session.localIndex = _
    rw [hpending.first (hfirst h)]

end Outcome

/-- A rekey of an established session, during which the peer's answers are
responses and cookie replies and whose last attempt does not end on a cookie, is
sound. -/
theorem rekey_all_or_nothing (P : Primitives) (tun : WgTunnel) (env : Nat → RekeyEnv)
    (now : UInt64) (hvalid : tun.session.valid = true)
    (hanswers : ∀ k, ∀ inp ∈ (env k).background, IsAnswer inp)
    (hcookie : ∀ k s events, k + 1 = wgMaxTimerHandshakes →
      Reaches (rekeyAttempt P env) 0 (rekeyStart tun) k s events →
      (env k).sent = true → (waited P (env k) s).1.pendingCookie = false) :
    RekeySound P tun env (wgRekey P tun env now) := by
  obtain ⟨k, s, events, err, tun', events', hreach, hends, hout⟩ :=
    wgRekey_ends (P := P) tun env now
  have hpending := reaches_pending hanswers hreach
  have hcase := rekeyAttempt_cases (P := P) k s (hanswers k)
  -- An accepted first attempt is the last one.
  have hfirst : (rekeyAttempt P env 0 (rekeyStart tun)).1 = .stop .ok → k = 0 := by
    intro hstop
    rcases Nat.eq_zero_or_pos k with hzero | hpos
    · exact hzero
    · obtain ⟨e, hagain⟩ := hreach.first_again hpos
      rw [hagain] at hstop
      cases hstop
  have hstart : k = 0 → s = rekeyStart tun := by
    rintro rfl
    cases hreach with
    | start => rfl
  rw [hout]
  rcases hends with hstop | ⟨hlast, hagain⟩
  · rw [hstop] at hcase
    cases hcase with
    | unsent _ _ hsession hprev hevents =>
        refine rekeySound_of_failed now hpending (by decide) (fun _ => rfl) hsession hevents ?_
        intro hok
        have hzero := hfirst hok
        rw [← hstart hzero, ← hzero, hstop] at hok
        cases hok
    | accepted remoteIndex keys sess _ _ hsess hsession hprev hevents =>
        exact rekeySound_of_accepted now hvalid hpending hsess hsession hprev hevents hfirst
  · rw [hagain] at hcase
    cases hcase with
    | retried _ remoteIndex _ _ hok hremote hsession hprev hevents =>
        have herr : err ≠ .ok := by
          intro hok'
          obtain ⟨hsent, hset⟩ := hok hok'
          rw [hcookie k s events hlast hreach hsent] at hset
          cases hset
        refine rekeySound_of_failed now hpending herr (fun hbad => ?_) hsession hevents ?_
        · apply hremote
          rintro rfl
          exact hbad k s events hreach (by rw [hagain])
        · intro hok'
          have hzero := hfirst hok'
          subst hzero
          exact absurd hlast (by decide)

def establishedTunnel : WgTunnel :=
  { initialTunnel additive
      ⟨Vector.replicate 32 3, 0, Vector.replicate 32 5, 25, zeroKey, false⟩ ⟨0, 51820⟩ with
    running := true
    session :=
      { WgSession.zeroed with
        sendingKey := Vector.replicate 32 2
        receivingKey := Vector.replicate 32 1
        sendingCounter := 40
        localIndex := 7
        remoteIndex := 8
        lastHandshake := 50
        valid := true } }

def rekeyAnswer : Bytes :=
  (sampleAnswer 5 zeroKey (sampleInit 3 5 openingDraws) ⟨sampleKey 13, 19, 120⟩).toBytes

def answeredRekey : Nat → RekeyEnv := fun _ =>
  { draws := openingDraws
    sent := true
    background := [⟨true, .ofBytes rekeyAnswer none, ⟨zeroKey, 0, 0⟩, 150⟩]
    now := 300 }

theorem rekey_all_or_nothing_answered :
    RekeySound additive establishedTunnel answeredRekey
      (wgRekey additive establishedTunnel answeredRekey 400) := by
  apply rekey_all_or_nothing additive establishedTunnel answeredRekey 400 rfl
  · intro k inp hinp
    cases List.mem_singleton.mp hinp
    intro buffer received src hresult
    cases hresult
    exact .inl (by decide +kernel)
  · intro k s events hlast hreach
    have hstop : (rekeyAttempt additive answeredRekey 0 (rekeyStart establishedTunnel)).1 =
        .stop .ok := by decide +kernel
    have hpos : 0 < k := by
      have hmax : wgMaxTimerHandshakes = 18 := rfl
      omega
    obtain ⟨e, hagain⟩ := hreach.first_again hpos
    rw [hstop] at hagain
    cases hagain

/-- The closing keepalive of a successful rekey has already used counter 0 of the
new sending key when the call returns. -/
theorem rekey_success_counter_one :
    let out := wgRekey additive establishedTunnel answeredRekey 400
    out.1 = .ok ∧ out.2.1.session.sendingCounter = 1 ∧
      out.2.1.prevSession.sendingCounter = 40 := by
  decide +kernel

end WgNx.RekeyOutcome
