import WgNx.NoiseHandshake
import WgNx.OutputMachine
import WgNx.SessionCalls
import WgNx.TunnelSetup

/-!
The UDP relay and the tunnel it is started on.

A relay registers itself as the user pointer of the tunnel's receive callback.  The
model follows that pointer through every sequence of relay and tunnel calls: which
relays exist, which have been freed, and what a failed `wg_relay_start` leaves in the
tunnel.
-/

namespace WgNx.UdpRelay

open WgNx.NoiseHandshake WgNx.OutputMachine WgNx.SessionCalls WgNx.TunnelSetup WgNx.TunnelState

section Calls

/-- The fields of a relay that its lifecycle depends on; `stopPred` is `stop_cond.pred`. -/
structure WgRelay where
  running : Bool
  stopPred : Bool
deriving DecidableEq

def wgRelayCreate : WgRelay := ⟨false, false⟩

/-- The last three arguments say which threads can be created.  The code's `-1` is
`WG_ERR_INVALID_CONFIG`. -/
def wgRelayStart (callback address : Nat) (tun : WgTunnel) (relay : WgRelay)
    (recvThread keepaliveThread relayThread : Bool) : WgError × WgTunnel × WgRelay :=
  if relay.running then (.invalidConfig, tun, relay)
  else
    let tun := wgSetRecvCallback tun (some callback) address
    let started := wgStart tun recvThread keepaliveThread
    if started.1 ≠ .ok then (started.1, started.2, relay)
    else
      let relay := { relay with stopPred := false }
      if !relayThread then (.invalidConfig, wgStop started.2, relay)
      else (.ok, started.2, { relay with running := true })

def wgRelayStop (tun : WgTunnel) (relay : WgRelay) : WgTunnel × WgRelay :=
  if !relay.running then (tun, relay)
  else (wgStop tun, { relay with stopPred := true, running := false })

/-- What the tunnel looks like once the relay is gone. -/
def wgRelayDestroy (tun : WgTunnel) (relay : WgRelay) : WgTunnel := (wgRelayStop tun relay).1

end Calls

section Program

/-- The address of `relay_recv_callback` and those of the relays, in the order of their
creation.  An address stands for the object, also after it is freed. -/
structure Addresses where
  callback : Nat
  relay : Nat → Nat
  relay_injective : Function.Injective relay

/-- The tunnel and all relays ever created; a freed one is `none`. -/
structure Program where
  tun : WgTunnel
  relays : List (Option WgRelay)

def Program.relayAt (s : Program) (k : Nat) : Option WgRelay := s.relays[k]?.join

def Program.Freed (s : Program) (k : Nat) : Prop := s.relays[k]? = some none

/-- What a failed `wg_relay_start` should not touch. -/
structure Installed where
  recvCb : Option Nat
  recvCbUser : Nat
  running : Bool
deriving DecidableEq

def installed (tun : WgTunnel) : Installed := ⟨tun.recvCb, tun.recvCbUser, tun.running⟩

/-- A call of `wg_relay_start` that returned an error. -/
structure FailedStart where
  before : Installed
  after : Installed
deriving DecidableEq

inductive Action
  | create (ok : Bool)
  | start (k : Nat) (recvThread keepaliveThread relayThread : Bool)
  | stop (k : Nat)
  | destroy (k : Nat)
  | tunnelStart (recvThread keepaliveThread : Bool)
  | tunnelStop
  | setRecvCallback (cb : Option Nat) (user : Nat)
  /-- Whatever else happens to the tunnel. -/
  | other (tun : WgTunnel)

/-- A call on a relay that does not exist has no effect, as one with a null pointer. -/
def step (mem : Addresses) (s : Program) : Action → Program × List FailedStart
  | .create ok => (if ok then { s with relays := s.relays ++ [some wgRelayCreate] } else s, [])
  | .start k recvThread keepaliveThread relayThread =>
      match s.relayAt k with
      | none => (s, [⟨installed s.tun, installed s.tun⟩])
      | some relay =>
          let out := wgRelayStart mem.callback (mem.relay k) s.tun relay recvThread
            keepaliveThread relayThread
          (⟨out.2.1, s.relays.set k (some out.2.2)⟩,
            if out.1 = .ok then [] else [⟨installed s.tun, installed out.2.1⟩])
  | .stop k =>
      match s.relayAt k with
      | none => (s, [])
      | some relay =>
          let out := wgRelayStop s.tun relay
          (⟨out.1, s.relays.set k (some out.2)⟩, [])
  | .destroy k =>
      match s.relayAt k with
      | none => (s, [])
      | some relay => (⟨wgRelayDestroy s.tun relay, s.relays.set k none⟩, [])
  | .tunnelStart recvThread keepaliveThread =>
      ({ s with tun := (wgStart s.tun recvThread keepaliveThread).2 }, [])
  | .tunnelStop => ({ s with tun := wgStop s.tun }, [])
  | .setRecvCallback cb user => ({ s with tun := wgSetRecvCallback s.tun cb user }, [])
  | .other tun =>
      ({ s with tun := { tun with
          recvCb := s.tun.recvCb, recvCbUser := s.tun.recvCbUser, running := s.tun.running } }, [])

/-- The user pointer of the receive callback is not that of a freed relay. -/
def NoDangling (mem : Addresses) (s : Program) : Prop :=
  ∀ k, s.Freed k → s.tun.recvCbUser ≠ mem.relay k

/-- A start that will fail finds the relay's own callback installed. -/
def FailsInPlace (mem : Addresses) (s : Program) : Action → Prop
  | .start k recvThread keepaliveThread relayThread =>
      ∀ relay, s.relayAt k = some relay → relay.running = false →
        (wgRelayStart mem.callback (mem.relay k) s.tun relay recvThread keepaliveThread
          relayThread).1 ≠ .ok →
        s.tun.recvCb = some mem.callback ∧ s.tun.recvCbUser = mem.relay k
  | _ => True

/-- A relay is destroyed only after another user pointer has been installed, and no
freed relay is installed again. -/
def DetachedFirst (mem : Addresses) (s : Program) : Action → Prop
  | .destroy k => (s.relayAt k).isSome → s.tun.recvCbUser ≠ mem.relay k
  | .setRecvCallback _ user => ∀ k, s.Freed k → user ≠ mem.relay k
  | _ => True

end Program

section Start

variable (callback address : Nat) (tun : WgTunnel) (relay : WgRelay)
  (recvThread keepaliveThread relayThread : Bool)

theorem wgStart_failed {tun : WgTunnel} (h : (wgStart tun recvThread keepaliveThread).1 ≠ .ok) :
    (wgStart tun recvThread keepaliveThread).2 = tun := by
  unfold wgStart at h ⊢
  split
  · rfl
  · rename_i hconnected
    rw [if_neg hconnected] at h
    split
    · rfl
    · rename_i hstopped
      rw [if_neg hstopped] at h
      split
      · rfl
      · rename_i hthreads
        rw [if_neg hthreads] at h
        exact absurd rfl h

theorem recvCbUser_wgStart (tun : WgTunnel) :
    (wgStart tun recvThread keepaliveThread).2.recvCb = tun.recvCb ∧
      (wgStart tun recvThread keepaliveThread).2.recvCbUser = tun.recvCbUser := by
  unfold wgStart
  split
  · exact ⟨rfl, rfl⟩
  · split
    · exact ⟨rfl, rfl⟩
    · split <;> exact ⟨rfl, rfl⟩

/-- `wg_start` succeeds only on a tunnel that is not running. -/
theorem running_of_wgStart_ok {tun : WgTunnel}
    (h : (wgStart tun recvThread keepaliveThread).1 = .ok) : tun.running = false := by
  unfold wgStart at h
  split at h
  · cases h
  · split at h
    · cases h
    · rename_i hstopped
      exact Bool.eq_false_iff.mpr hstopped

theorem recvCbUser_wgRelayStart :
    (wgRelayStart callback address tun relay recvThread keepaliveThread
        relayThread).2.1.recvCbUser = tun.recvCbUser ∨
      (wgRelayStart callback address tun relay recvThread keepaliveThread
        relayThread).2.1.recvCbUser = address := by
  have huser := (recvCbUser_wgStart recvThread keepaliveThread
    (wgSetRecvCallback tun (some callback) address)).2
  unfold wgRelayStart
  split
  · exact .inl rfl
  · dsimp only
    split
    · exact .inr huser
    · split
      · exact .inr huser
      · exact .inr huser

/-- A failed start that gets past its first test has installed the callback and has put
`running` back. -/
theorem installed_wgRelayStart {relay : WgRelay} (hidle : relay.running = false)
    (h : (wgRelayStart callback address tun relay recvThread keepaliveThread
      relayThread).1 ≠ .ok) :
    installed (wgRelayStart callback address tun relay recvThread keepaliveThread
      relayThread).2.1 = ⟨some callback, address, tun.running⟩ := by
  have huser := recvCbUser_wgStart recvThread keepaliveThread
    (wgSetRecvCallback tun (some callback) address)
  unfold wgRelayStart at h ⊢
  rw [if_neg (Bool.eq_false_iff.mp hidle)] at h ⊢
  dsimp only at h ⊢
  split
  · rename_i hfailed
    rw [wgStart_failed recvThread keepaliveThread hfailed]
    rfl
  · rename_i hstarted
    rw [if_neg hstarted] at h
    have hstopped := running_of_wgStart_ok recvThread keepaliveThread (not_not.mp hstarted)
    change tun.running = false at hstopped
    split
    · unfold installed wgStop
      rw [huser.1, huser.2, hstopped]
      rfl
    · rename_i hthread
      rw [if_neg hthread] at h
      exact absurd rfl h

theorem wgRelayStart_running {relay : WgRelay} (hrunning : relay.running = true) :
    wgRelayStart callback address tun relay recvThread keepaliveThread relayThread =
      (.invalidConfig, tun, relay) := if_pos hrunning

theorem recvCbUser_wgRelayStop : (wgRelayStop tun relay).1.recvCbUser = tun.recvCbUser := by
  unfold wgRelayStop
  split <;> rfl

end Start

section Steps

variable (mem : Addresses)

/-- The failed starts of a step leave the tunnel alone exactly if they find the relay's
own callback installed. -/
theorem harmless_step_iff (s : Program) (a : Action) :
    (∀ e ∈ (step mem s a).2, e.before = e.after) ↔ FailsInPlace mem s a := by
  cases a with
  | start k recvThread keepaliveThread relayThread =>
      cases hrelay : s.relayAt k with
      | none => simp [step, FailsInPlace, hrelay]
      | some relay =>
          simp only [step, FailsInPlace, hrelay, Option.some.injEq, forall_eq']
          by_cases hok : (wgRelayStart mem.callback (mem.relay k) s.tun relay recvThread
              keepaliveThread relayThread).1 = .ok
          · simp [hok]
          · rw [if_neg hok, List.forall_mem_singleton]
            cases hrunning : relay.running with
            | true =>
                rw [wgRelayStart_running _ _ _ _ _ _ hrunning]
                simp
            | false =>
                rw [installed_wgRelayStart _ _ _ _ _ _ hrunning hok]
                simp [installed, hok]
  | create ok => simp [step, FailsInPlace]
  | stop k => cases hrelay : s.relayAt k <;> simp [step, FailsInPlace, hrelay]
  | destroy k => cases hrelay : s.relayAt k <;> simp [step, FailsInPlace, hrelay]
  | tunnelStart recvThread keepaliveThread => simp [step, FailsInPlace]
  | tunnelStop => simp [step, FailsInPlace]
  | setRecvCallback cb user => simp [step, FailsInPlace]
  | other tun => simp [step, FailsInPlace]

/-- Replacing a relay by a live one frees nothing. -/
theorem freed_set_some {s : Program} {k j : Nat} {tun : WgTunnel} {relay : WgRelay}
    (h : Program.Freed ⟨tun, s.relays.set k (some relay)⟩ j) : j ≠ k ∧ s.Freed j := by
  simp only [Program.Freed, List.getElem?_set] at h
  split at h
  · split at h <;> simp at h
  · rename_i hne
    exact ⟨fun heq => hne heq.symm, h⟩

theorem freed_set_none {s : Program} {k j : Nat} {tun : WgTunnel}
    (h : Program.Freed ⟨tun, s.relays.set k none⟩ j) : j = k ∨ s.Freed j := by
  simp only [Program.Freed, List.getElem?_set] at h
  split at h
  · rename_i heq
    exact .inl heq.symm
  · exact .inr h

theorem freed_set_self {s : Program} {k : Nat} (tun : WgTunnel)
    (h : (s.relayAt k).isSome = true) : Program.Freed ⟨tun, s.relays.set k none⟩ k := by
  have hlt : k < s.relays.length := by
    by_contra hge
    rw [Program.relayAt, List.getElem?_eq_none (Nat.not_lt.mp hge)] at h
    cases h
  simp [Program.Freed, hlt]

theorem freed_append {s : Program} {j : Nat} {tun : WgTunnel} {relay : WgRelay}
    (h : Program.Freed ⟨tun, s.relays ++ [some relay]⟩ j) : s.Freed j := by
  simp only [Program.Freed, List.getElem?_append] at h
  split at h
  · exact h
  · rcases Nat.eq_zero_or_pos (j - s.relays.length) with hzero | hpos
    · simp [hzero] at h
    · rw [List.getElem?_eq_none hpos] at h
      cases h

theorem noDangling_step {s : Program} {a : Action} (h : NoDangling mem s)
    (hdetached : DetachedFirst mem s a) : NoDangling mem (step mem s a).1 := by
  intro j hfreed
  cases a with
  | create ok =>
      cases ok with
      | false => exact h j hfreed
      | true => exact h j (freed_append hfreed)
  | start k recvThread keepaliveThread relayThread =>
      cases hrelay : s.relayAt k with
      | none =>
          simp only [step, hrelay] at hfreed ⊢
          exact h j hfreed
      | some relay =>
          simp only [step, hrelay] at hfreed ⊢
          obtain ⟨hne, hold⟩ := freed_set_some hfreed
          rcases recvCbUser_wgRelayStart mem.callback (mem.relay k) s.tun relay recvThread
            keepaliveThread relayThread with huser | huser
          · rw [huser]
            exact h j hold
          · rw [huser]
            exact fun heq => hne (mem.relay_injective heq).symm
  | stop k =>
      cases hrelay : s.relayAt k with
      | none =>
          simp only [step, hrelay] at hfreed ⊢
          exact h j hfreed
      | some relay =>
          simp only [step, hrelay] at hfreed ⊢
          rw [recvCbUser_wgRelayStop]
          exact h j (freed_set_some hfreed).2
  | destroy k =>
      cases hrelay : s.relayAt k with
      | none =>
          simp only [step, hrelay] at hfreed ⊢
          exact h j hfreed
      | some relay =>
          simp only [step, hrelay] at hfreed ⊢
          rw [wgRelayDestroy, recvCbUser_wgRelayStop]
          rcases freed_set_none hfreed with heq | hold
          · rw [heq]
            exact hdetached (by rw [hrelay]; rfl)
          · exact h j hold
  | tunnelStart recvThread keepaliveThread =>
      simp only [step] at hfreed ⊢
      rw [(recvCbUser_wgStart recvThread keepaliveThread s.tun).2]
      exact h j hfreed
  | tunnelStop => exact h j hfreed
  | setRecvCallback cb user => exact hdetached j hfreed
  | other tun => exact h j hfreed

theorem detachedFirst_of_noDangling {s : Program} {a : Action}
    (h : NoDangling mem (step mem s a).1) : DetachedFirst mem s a := by
  cases a with
  | destroy k =>
      intro hlive
      have hfreed := freed_set_self (step mem s (.destroy k)).1.tun hlive
      obtain ⟨relay, hrelay⟩ := Option.isSome_iff_exists.mp hlive
      have hnot := h k
      simp only [step, hrelay, wgRelayDestroy, recvCbUser_wgRelayStop] at hnot hfreed
      exact hnot hfreed
  | setRecvCallback cb user => exact fun k hfreed => h k hfreed
  | create ok => trivial
  | start k recvThread keepaliveThread relayThread => trivial
  | stop k => trivial
  | tunnelStart recvThread keepaliveThread => trivial
  | tunnelStop => trivial
  | other tun => trivial

/-- Relay `k` at address `2 k + 1`. -/
def sampleAddresses : Addresses where
  callback := 100
  relay k := 2 * k + 1
  relay_injective := fun a b h => by
    change 2 * a + 1 = 2 * b + 1 at h
    omega

end Steps

end WgNx.UdpRelay
