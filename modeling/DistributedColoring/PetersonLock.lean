import DistributedColoring.ReplicatedLog
import Mathlib.Logic.Relation

set_option autoImplicit false

/- Peterson's lock for two parties whose flags and turn are kept in a replicated
store: each party writes and reads at a server of its own. Servers, keys, values
and replies are arbitrary; the two parties may share a server. -/
namespace PetersonLock

open ReplicatedLog

/-- Where a party is in its protocol, with the replies of the spin loop it holds. -/
inductive Phase (R : Type)
  | idle
  | raised
  | announced
  | spinning (flag turn : Option R)
  | held

/-- One lock as one of its two parties sees it. -/
structure Edge (S K V R : Type) where
  server : S
  peerServer : S
  flag : K
  peerFlag : K
  turn : K
  name : V
  peerName : V
  /-- The value of a raised flag. -/
  one : V
  /-- The reply that reports a stored value. -/
  view : Option V → R

namespace Edge

variable {S K V R : Type}

def swap (E : Edge S K V R) : Edge S K V R :=
  ⟨E.peerServer, E.server, E.peerFlag, E.flag, E.turn, E.peerName, E.name, E.one, E.view⟩

structure Distinct (E : Edge S K V R) : Prop where
  flags : E.flag ≠ E.peerFlag
  flag : E.flag ≠ E.turn
  peerFlag : E.peerFlag ≠ E.turn

end Edge

variable {S K V R : Type} {E : Edge S K V R} {n : Net S K V} {p p' q : Phase R}

namespace Phase

def Raised : Phase R → Prop
  | .idle => False
  | _ => True

def Announced : Phase R → Prop
  | .idle => False
  | .raised => False
  | _ => True

/-- The party neither holds the lock nor has read anything that would let it in. -/
def Yields (E : Edge S K V R) : Phase R → Prop
  | .spinning flag turn => (∀ r, flag = some r → r = E.view (some E.one)) ∧
      ∀ r, turn = some r → r = E.view (some E.name)
  | .held => False
  | _ => True

end Phase

/-- The moves of a party that write nothing. -/
inductive Step (E : Edge S K V R) (n : Net S K V) : Phase R → Phase R → Prop
  | raise (shown : n.Shows E.peerServer E.flag E.one) : Step E n .idle .raised
  | spin : Step E n .announced (.spinning none none)
  | readFlag (turn : Option R) : Step E n (.spinning none turn)
      (.spinning (some (E.view (n.store E.server E.peerFlag))) turn)
  | readTurn (flag : Option R) : Step E n (.spinning flag none)
      (.spinning flag (some (E.view (n.store E.server E.turn))))
  | retry (flag turn : R) : Step E n (.spinning (some flag) (some turn)) (.spinning none none)
  | enter (flag turn : R)
      (free : flag ≠ E.view (some E.one) ∨ turn ≠ E.view (some E.name)) :
      Step E n (.spinning (some flag) (some turn)) .held
  | abandon (flag turn : Option R) : Step E n (.spinning flag turn) .idle

/-- The invariant of the two parties. -/
structure Safe (E : Edge S K V R) (n : Net S K V) (p q : Phase R) : Prop where
  flag : p.Raised → n.Shows E.peerServer E.flag E.one
  peerFlag : q.Raised → n.Shows E.server E.peerFlag E.one
  turn : p.Announced ∨ q.Announced →
    n.Newest E.turn E.server E.name E.peerServer ∨
      n.Newest E.turn E.peerServer E.peerName E.server
  self : p.Yields E ∨
    (q.Yields E.swap ∧ (q.Announced → n.Newest E.turn E.peerServer E.peerName E.server))
  peer : q.Yields E.swap ∨
    (p.Yields E ∧ (p.Announced → n.Newest E.turn E.server E.name E.peerServer))

theorem Safe.symm (safe : Safe E n p q) : Safe E.swap n q p :=
  ⟨safe.peerFlag, safe.flag, fun announced => (safe.turn announced.symm).symm, safe.peer,
    safe.self⟩

theorem Safe.exclusive (safe : Safe E n p q) (left : p = .held) : q ≠ .held := by
  intro right
  subst left right
  rcases safe.self with yields | ⟨yields, _⟩
  · exact yields
  · exact yields

theorem safe_idle : Safe E n .idle .idle :=
  ⟨False.elim, False.elim, fun announced => announced.elim False.elim False.elim, Or.inl trivial,
    Or.inl trivial⟩

/-- Reading the peer's flag: whatever else it says, a raised flag is seen. -/
theorem Safe.readFlag {turn : Option R} (safe : Safe E n (.spinning none turn) q) :
    Safe E n (.spinning (some (E.view (n.store E.server E.peerFlag))) turn) q := by
  have seen : q.Raised → E.view (n.store E.server E.peerFlag) = E.view (some E.one) := by
    intro raised
    rw [(safe.peerFlag raised).2]
  have keeps : q.Raised → (Phase.spinning none turn).Yields E →
      (Phase.spinning (some (E.view (n.store E.server E.peerFlag))) turn).Yields E := by
    intro raised yields
    refine ⟨?_, yields.2⟩
    intro r same
    rw [← Option.some.inj same]
    exact seen raised
  refine ⟨safe.flag, safe.peerFlag, safe.turn, ?_, ?_⟩
  · cases q with
    | idle => exact Or.inr ⟨trivial, False.elim⟩
    | raised => exact safe.self.imp_left (keeps trivial)
    | announced => exact safe.self.imp_left (keeps trivial)
    | spinning f t => exact safe.self.imp_left (keeps trivial)
    | held => exact safe.self.imp_left (keeps trivial)
  · cases q with
    | idle => exact Or.inl trivial
    | raised => exact Or.inl trivial
    | announced => exact Or.inl trivial
    | spinning f t => exact safe.peer.imp_right fun both => ⟨keeps trivial both.1, both.2⟩
    | held => exact safe.peer.imp_right fun both => ⟨keeps trivial both.1, both.2⟩

/-- Reading the turn: a party that sees the other's name is the one that may pass. -/
theorem Safe.readTurn {flag : Option R} (safe : Safe E n (.spinning flag none) q) :
    Safe E n (.spinning flag (some (E.view (n.store E.server E.turn)))) q := by
  have keeps : n.Newest E.turn E.server E.name E.peerServer →
      (Phase.spinning flag none).Yields E →
      (Phase.spinning flag (some (E.view (n.store E.server E.turn)))).Yields E := by
    intro newest yields
    refine ⟨yields.1, ?_⟩
    intro r same
    rw [← Option.some.inj same, newest.here]
  refine ⟨safe.flag, safe.peerFlag, safe.turn, ?_, ?_⟩
  · rcases safe.turn (Or.inl trivial) with mine | theirs
    · exact safe.self.imp_left (keeps mine)
    · rcases safe.peer with yields | ⟨yields, newest⟩
      · exact Or.inr ⟨yields, fun _ => theirs⟩
      · exact Or.inl (keeps (newest trivial) yields)
  · rcases safe.peer with yields | ⟨yields, newest⟩
    · exact Or.inl yields
    · exact Or.inr ⟨keeps (newest trivial) yields, newest⟩

/-- No move of a party that writes nothing breaks the invariant. -/
theorem Safe.step (safe : Safe E n p q) (taken : Step E n p p') : Safe E n p' q := by
  cases taken with
  | raise shown =>
      exact ⟨fun _ => shown, safe.peerFlag, safe.turn, Or.inl trivial,
        safe.peer.imp_right fun both => ⟨trivial, False.elim⟩⟩
  | spin =>
      have yields : (Phase.spinning none none).Yields E := ⟨by simp, by simp⟩
      exact ⟨safe.flag, safe.peerFlag, safe.turn, Or.inl yields,
        safe.peer.imp_right fun both => ⟨yields, both.2⟩⟩
  | readFlag turn => exact safe.readFlag
  | readTurn flag => exact safe.readTurn
  | retry flag turn =>
      have yields : (Phase.spinning none none).Yields E := ⟨by simp, by simp⟩
      exact ⟨safe.flag, safe.peerFlag, safe.turn, Or.inl yields,
        safe.peer.imp_right fun both => ⟨yields, both.2⟩⟩
  | enter flag turn free =>
      have pushy : ¬ (Phase.spinning (some flag) (some turn)).Yields E := by
        intro yields
        rcases free with other | other
        · exact other (yields.1 flag rfl)
        · exact other (yields.2 turn rfl)
      have first := safe.self.resolve_left pushy
      exact ⟨safe.flag, safe.peerFlag, safe.turn, Or.inr first, Or.inl first.1⟩
  | abandon flag turn =>
      exact ⟨False.elim, safe.peerFlag, fun announced => safe.turn (announced.imp_left False.elim),
        Or.inl trivial, safe.peer.imp_right fun _ => ⟨trivial, False.elim⟩⟩

theorem Safe.steps (safe : Safe E n p q) (taken : Relation.ReflTransGen (Step E n) p p') :
    Safe E n p' q := by
  induction taken with
  | refl => exact safe
  | tail _ last ih => exact ih.step last

section Writes

variable [DecidableEq S] [DecidableEq K]

/-- The party announces the turn while no announcement is under way to its server. -/
theorem Safe.announce (safe : Safe E n p q) (wf : n.WellFormed) (distinct : E.Distinct)
    (raised : p = .raised ∨ p = .announced) (clear : ¬ n.InFlight E.server E.turn) :
    Safe E (n.write E.server E.turn E.name) .announced q := by
  have newest := Net.Newest.of_write wf E.name E.peerServer clear
  have flag : n.Shows E.peerServer E.flag E.one := by
    apply safe.flag
    rcases raised with same | same <;> subst same <;> trivial
  exact ⟨fun _ => flag.write_other wf _ _ distinct.flag,
    fun up => (safe.peerFlag up).write_other wf _ _ distinct.peerFlag, fun _ => Or.inl newest,
    Or.inl trivial, Or.inr ⟨trivial, fun _ => newest⟩⟩

/-- The party writes its own flag and is not interested afterwards. -/
theorem Safe.lower (safe : Safe E n p q) (wf : n.WellFormed) (distinct : E.Distinct) (s : S)
    (v : V) : Safe E (n.write s E.flag v) .idle q := by
  refine ⟨False.elim, fun up => (safe.peerFlag up).write_other wf _ _ distinct.flags.symm, ?_,
    Or.inl trivial, Or.inr ⟨trivial, False.elim⟩⟩
  intro announced
  exact (safe.turn (announced.imp_left False.elim)).imp
    (fun newest => newest.write_other wf _ _ distinct.flag.symm)
    fun newest => newest.write_other wf _ _ distinct.flag.symm

theorem Safe.write_other (safe : Safe E n p q) (wf : n.WellFormed) (s : S) {key : K} (v : V)
    (flag : E.flag ≠ key) (peerFlag : E.peerFlag ≠ key) (turn : E.turn ≠ key) :
    Safe E (n.write s key v) p q :=
  ⟨fun up => (safe.flag up).write_other wf _ _ flag,
    fun up => (safe.peerFlag up).write_other wf _ _ peerFlag,
    fun announced => (safe.turn announced).imp (fun newest => newest.write_other wf _ _ turn)
      fun newest => newest.write_other wf _ _ turn,
    safe.self.imp_right fun both => ⟨both.1, fun up => (both.2 up).write_other wf _ _ turn⟩,
    safe.peer.imp_right fun both => ⟨both.1, fun up => (both.2 up).write_other wf _ _ turn⟩⟩

/-- Each server only receives announcements of the party at the other one. -/
theorem Safe.replay (safe : Safe E n p q) {r o : S} {key : K} {v : V}
    (front : (n.log o).drop (n.seen r o) = (key, v) :: (n.log o).drop (n.seen r o + 1))
    (toPeer : r = E.peerServer → key = E.turn → v = E.name)
    (toSelf : r = E.server → key = E.turn → v = E.peerName) :
    Safe E (n.replay r o key v) p q :=
  ⟨fun up => (safe.flag up).replay front, fun up => (safe.peerFlag up).replay front,
    fun announced => (safe.turn announced).imp (fun newest => newest.replay front toPeer)
      fun newest => newest.replay front toSelf,
    safe.self.imp_right fun both => ⟨both.1, fun up => (both.2 up).replay front toSelf⟩,
    safe.peer.imp_right fun both => ⟨both.1, fun up => (both.2 up).replay front toPeer⟩⟩

end Writes

end PetersonLock
