import Mathlib.Data.Fintype.Card
import Mathlib.Data.List.Infix
import Mathlib.Data.List.Nodup

set_option autoImplicit false

/- Flooding with stamps. Every server keeps a stream of messages that all others
read in order. It adds its own operations to the stream, and passes on what it
accepts from others with its own name and stamp around it. A message is dropped
when one of the hops it took is the reader itself or is not newer than what the
reader has noted for that hop. Servers and operations are arbitrary. -/
namespace StampedFlood

structure Message (S A : Type) where
  /-- The servers that passed the message on and their stamps, the latest first. -/
  relays : List (S × ℕ)
  origin : S × ℕ
  op : A

namespace Message

variable {S A : Type}

def hops (m : Message S A) : List (S × ℕ) := m.relays ++ [m.origin]

/-- The hop at which the message is read. -/
def first (m : Message S A) : S × ℕ := m.relays.headD m.origin

def relay (m : Message S A) (t : S) (stamp : ℕ) : Message S A :=
  ⟨(t, stamp) :: m.relays, m.origin, m.op⟩

/-- What identifies an operation, and the operation. -/
def tag (m : Message S A) : (S × ℕ) × A := (m.origin, m.op)

@[simp] theorem first_relay (m : Message S A) (t : S) (stamp : ℕ) :
    (m.relay t stamp).first = (t, stamp) := rfl

theorem first_mem_hops (m : Message S A) : m.first ∈ m.hops := by
  obtain ⟨relays, origin, op⟩ := m
  cases relays with
  | nil => exact List.mem_singleton_self origin
  | cons hop rest => exact List.mem_cons_self

theorem origin_mem_hops (m : Message S A) : m.origin ∈ m.hops :=
  List.mem_append_right _ (List.mem_singleton_self _)

/-- Induction along the hops: a message is its origin's own or has been passed on. -/
@[elab_as_elim] theorem hop_induction {P : Message S A → Prop} (m : Message S A)
    (own : ∀ origin op, P ⟨[], origin, op⟩)
    (relayed : ∀ m t stamp, P m → P (m.relay t stamp)) : P m := by
  obtain ⟨relays, origin, op⟩ := m
  induction relays with
  | nil => exact own origin op
  | cons hop rest ih => exact relayed ⟨rest, origin, op⟩ hop.1 hop.2 ih

end Message

section Notes

variable {S : Type} [DecidableEq S]

def fresh (t : S) (seen : S → ℕ) (hop : S × ℕ) : Bool :=
  decide (hop.1 ≠ t ∧ seen hop.1 < hop.2)

def note (seen : S → ℕ) (hop : S × ℕ) : S → ℕ :=
  if seen hop.1 < hop.2 then Function.update seen hop.1 hop.2 else seen

/-- What is noted after a message: its hops up to the first that is not fresh. -/
def noteAll (t : S) (seen : S → ℕ) : List (S × ℕ) → S → ℕ
  | [] => seen
  | hop :: rest => if fresh t seen hop then note (noteAll t seen rest) hop else seen

def passes (t : S) (seen : S → ℕ) (hops : List (S × ℕ)) : Bool :=
  hops.all (fresh t seen)

theorem le_note (seen : S → ℕ) (hop : S × ℕ) (u : S) : seen u ≤ note seen hop u := by
  unfold note
  split
  · rename_i newer
    by_cases same : u = hop.1
    · rw [same, Function.update_self]
      omega
    · rw [Function.update_of_ne same]
  · exact le_refl _

theorem stamp_le_note (seen : S → ℕ) (hop : S × ℕ) : hop.2 ≤ note seen hop hop.1 := by
  unfold note
  split
  · rw [Function.update_self]
  · omega

theorem note_cases (seen : S → ℕ) (hop : S × ℕ) (u : S) :
    note seen hop u = seen u ∨ hop = (u, note seen hop u) := by
  unfold note
  split
  · by_cases same : u = hop.1
    · subst same
      rw [Function.update_self]
      exact Or.inr rfl
    · exact Or.inl (Function.update_of_ne same _ _)
  · exact Or.inl rfl

theorem le_noteAll (t : S) (seen : S → ℕ) (hops : List (S × ℕ)) (u : S) :
    seen u ≤ noteAll t seen hops u := by
  induction hops with
  | nil => exact le_refl _
  | cons hop rest ih =>
      unfold noteAll
      split
      · exact ih.trans (le_note _ hop u)
      · exact le_refl _

/-- A note is an old one or a hop of the message. -/
theorem noteAll_cases (t : S) (seen : S → ℕ) (hops : List (S × ℕ)) (u : S) :
    noteAll t seen hops u = seen u ∨ (u, noteAll t seen hops u) ∈ hops := by
  induction hops with
  | nil => exact Or.inl rfl
  | cons hop rest ih =>
      unfold noteAll
      split
      · rcases note_cases (noteAll t seen rest) hop u with same | new
        · rw [same]
          exact ih.imp_right (List.mem_cons_of_mem hop)
        · rw [← new]
          exact Or.inr List.mem_cons_self
      · exact Or.inl rfl

theorem stamp_le_noteAll {t : S} {seen : S → ℕ} {hops : List (S × ℕ)}
    (all : passes t seen hops = true) {hop : S × ℕ} (member : hop ∈ hops) :
    hop.2 ≤ noteAll t seen hops hop.1 := by
  induction hops with
  | nil => cases member
  | cons head rest ih =>
      obtain ⟨here, later⟩ := Bool.and_eq_true_iff.mp all
      unfold noteAll
      rw [if_pos here]
      rcases List.mem_cons.mp member with same | deeper
      · rw [same]
        exact stamp_le_note _ head
      · exact (ih later deeper).trans (le_note _ head _)

end Notes

structure Flood (S A : Type) where
  out : S → List (Message S A)
  /-- `remote t u` is the newest stamp of `u` that `t` has noted. -/
  remote : S → S → ℕ
  /-- The latest stamp a server has used. -/
  clock : S → ℕ
  /-- `read t s` counts the messages of `s` that `t` has read. -/
  read : S → S → ℕ

namespace Flood

variable {S A : Type}

def start : Flood S A := ⟨fun _ => [], fun _ _ => 0, fun _ => 0, fun _ _ => 0⟩

/-- The operation has reached server `t`. -/
def Has (n : Flood S A) (t : S) (tag : (S × ℕ) × A) : Prop :=
  tag ∈ (n.out t).map Message.tag

/-- Server `t` has every operation in the stream of `hop.1` up to the stamp. -/
def Covers (n : Flood S A) (t : S) (hop : S × ℕ) : Prop :=
  ∀ m ∈ n.out hop.1, m.first.2 ≤ hop.2 → n.Has t m.tag

/-- The streams alone: what they carry and how they are nested. -/
structure Streams (n : Flood S A) : Prop where
  first : ∀ s, ∀ m ∈ n.out s, m.first.1 = s
  sorted : ∀ s, (n.out s).Pairwise fun a b => a.first.2 < b.first.2
  clock : ∀ s, ∀ m ∈ n.out s, m.first.2 ≤ n.clock s
  positive : ∀ s, ∀ m ∈ n.out s, ∀ hop ∈ m.hops, 0 < hop.2
  distinct : ∀ s, ∀ m ∈ n.out s, (m.hops.map Prod.fst).Nodup
  nested : ∀ s t stamp (m : Message S A), m.relay t stamp ∈ n.out s → m ∈ n.out m.first.1
  carried : ∀ s t stamp (m : Message S A), m.relay t stamp ∈ n.out s → ∀ x ∈ n.out m.first.1,
    x.first.2 ≤ m.first.2 → ∃ y ∈ n.out s, y.first.2 ≤ stamp ∧ y.tag = x.tag

variable {n : Flood S A}

/-- Each hop of a message is a position in the stream of its server. -/
theorem Streams.hop_mem (streams : n.Streams) (m : Message S A) :
    ∀ s, m ∈ n.out s → ∀ hop ∈ m.hops, ∃ x ∈ n.out hop.1, x.first = hop ∧ x.tag = m.tag := by
  induction m using Message.hop_induction with
  | own origin op =>
    intro s member hop inside
    have source := streams.first s _ member
    change origin.1 = s at source
    subst source
    rw [List.mem_singleton.mp inside]
    exact ⟨_, member, rfl, rfl⟩
  | relayed m t stamp ih =>
    intro s member hop inside
    rcases List.mem_cons.mp inside with same | deeper
    · subst same
      have source := streams.first s _ member
      change t = s at source
      subst source
      exact ⟨_, member, rfl, rfl⟩
    · exact ih _ (streams.nested s t stamp m member) hop deeper

/-- What holds of every operation up to the first hop of a message, in the stream of
that hop, holds up to each later hop in its stream. -/
theorem Streams.covers_hops (streams : n.Streams) {P : (S × ℕ) × A → Prop} (m : Message S A) :
    ∀ s, m ∈ n.out s → (∀ x ∈ n.out m.first.1, x.first.2 ≤ m.first.2 → P x.tag) →
      ∀ hop ∈ m.hops, ∀ x ∈ n.out hop.1, x.first.2 ≤ hop.2 → P x.tag := by
  induction m using Message.hop_induction with
  | own origin op =>
    intro s member covers hop inside
    rw [List.mem_singleton.mp inside]
    exact covers
  | relayed m u stamp ih =>
    intro s member covers hop inside
    have source := streams.first s _ member
    change u = s at source
    subst source
    rcases List.mem_cons.mp inside with same | deeper
    · subst same
      exact covers
    · apply ih _ (streams.nested u u stamp m member) _ hop deeper
      intro x known bound
      obtain ⟨y, carried, below, tag⟩ := streams.carried u u stamp m member x known bound
      rw [← tag]
      exact covers y carried below

/-- The origin of a message has the operation in its own stream. -/
theorem Streams.own_mem (streams : n.Streams) {s : S} {m : Message S A} (member : m ∈ n.out s) :
    (⟨[], m.origin, m.op⟩ : Message S A) ∈ n.out m.origin.1 := by
  induction m using Message.hop_induction generalizing s with
  | own origin op =>
    have source := streams.first s _ member
    change origin.1 = s at source
    rw [source]
    exact member
  | relayed m t stamp ih => exact ih (streams.nested s t stamp m member)

theorem Streams.first_eq_origin (streams : n.Streams) {m : Message S A}
    (member : m ∈ n.out m.origin.1) : m.first = m.origin := by
  have distinct := streams.distinct _ m member
  have source := streams.first _ m member
  obtain ⟨relays, home, op⟩ := m
  cases relays with
  | nil => rfl
  | cons hop rest =>
      change hop.1 = home.1 at source
      simp [Message.hops, source] at distinct

variable [DecidableEq S]

/-- Server `t` adds a message to its stream. -/
def append (n : Flood S A) (t : S) (stamp : ℕ) (m : Message S A) : Flood S A :=
  { n with
    out := Function.update n.out t (n.out t ++ [m])
    clock := Function.update n.clock t stamp }

def emit (n : Flood S A) (s : S) (stamp : ℕ) (op : A) : Flood S A :=
  n.append s stamp ⟨[], (s, stamp), op⟩

/-- Server `t` reads a message of `s` and notes its hops. -/
def skip (n : Flood S A) (t s : S) (m : Message S A) : Flood S A :=
  { n with
    remote := Function.update n.remote t (noteAll t (n.remote t) m.hops)
    read := Function.update n.read t (Function.update (n.read t) s (n.read t s + 1)) }

def receive (n : Flood S A) (t s : S) (stamp : ℕ) (m : Message S A) : Flood S A :=
  if passes t (n.remote t) m.hops then (n.skip t s m).append t stamp (m.relay t stamp)
  else n.skip t s m

theorem mem_append_out (n : Flood S A) (t s : S) (stamp : ℕ) (m x : Message S A) :
    x ∈ (n.append t stamp m).out s ↔ x ∈ n.out s ∨ (s = t ∧ x = m) := by
  by_cases same : s = t
  · subst same
    simp [append]
  · simp [append, same]

theorem clock_le_append (n : Flood S A) {t : S} {stamp : ℕ} (later : n.clock t < stamp)
    (m : Message S A) (s : S) : n.clock s ≤ (n.append t stamp m).clock s := by
  by_cases same : s = t
  · subst same
    simp [append, later.le]
  · simp [append, same]

theorem has_append (n : Flood S A) (t s : S) (stamp : ℕ) (m : Message S A)
    (tag : (S × ℕ) × A) :
    (n.append t stamp m).Has s tag ↔ n.Has s tag ∨ (s = t ∧ tag = m.tag) := by
  by_cases same : s = t
  · subst same
    simp [Has, append]
  · simp [Has, append, same]

/-- A stream may be continued by a message whose hops the server already covers. -/
theorem Streams.append (streams : n.Streams) {t : S} {stamp : ℕ} (later : n.clock t < stamp)
    {m : Message S A} (first : m.first = (t, stamp)) (positive : ∀ hop ∈ m.hops, 0 < hop.2)
    (distinct : (m.hops.map Prod.fst).Nodup)
    (nested : ∀ u st (x : Message S A), m = x.relay u st → x ∈ n.out x.first.1 ∧
      ∀ y ∈ n.out x.first.1, y.first.2 ≤ x.first.2 → y.tag = m.tag ∨ n.Has t y.tag) :
    (n.append t stamp m).Streams := by
  have fresh : ∀ x ∈ n.out t, x.first.2 < stamp := fun x member =>
    (streams.clock t x member).trans_lt later
  refine ⟨?_, ?_, ?_, ?_, ?_, ?_, ?_⟩
  · intro s x member
    rcases (mem_append_out n t s stamp m x).mp member with old | ⟨here, new⟩
    · exact streams.first s x old
    · rw [here, new, first]
  · intro s
    by_cases same : s = t
    · subst same
      simp only [Flood.append, Function.update_self]
      refine List.pairwise_append.mpr ⟨streams.sorted s, List.pairwise_singleton _ _, ?_⟩
      intro a old b new
      rw [List.mem_singleton.mp new, first]
      exact fresh a old
    · simpa [Flood.append, same] using streams.sorted s
  · intro s x member
    rcases (mem_append_out n t s stamp m x).mp member with old | ⟨here, new⟩
    · exact (streams.clock s x old).trans (clock_le_append n later m s)
    · rw [here, new, first]
      simp [Flood.append]
  · intro s x member
    rcases (mem_append_out n t s stamp m x).mp member with old | ⟨_, new⟩
    · exact streams.positive s x old
    · rw [new]
      exact positive
  · intro s x member
    rcases (mem_append_out n t s stamp m x).mp member with old | ⟨_, new⟩
    · exact streams.distinct s x old
    · rw [new]
      exact distinct
  · intro s u st x member
    apply (mem_append_out n t _ stamp m x).mpr
    rcases (mem_append_out n t s stamp m _).mp member with old | ⟨_, new⟩
    · exact Or.inl (streams.nested s u st x old)
    · exact Or.inl (nested u st x new.symm).1
  · intro s u st x member y known bound
    rcases (mem_append_out n t s stamp m _).mp member with old | ⟨here, new⟩
    · have inner := streams.nested s u st x old
      rcases (mem_append_out n t _ stamp m y).mp known with before | ⟨source, latest⟩
      · obtain ⟨z, carried, below, tag⟩ := streams.carried s u st x old y before bound
        exact ⟨z, (mem_append_out n t s stamp m z).mpr (Or.inl carried), below, tag⟩
      · rw [source] at inner
        have less := fresh x inner
        rw [latest, first] at bound
        exact absurd bound (Nat.not_le_of_lt less)
    · obtain ⟨inner, covered⟩ := nested u st x new.symm
      have firsts := congrArg Message.first new
      rw [first, Message.first_relay] at firsts
      obtain ⟨server, stampEq⟩ := Prod.mk.inj firsts
      subst here stampEq server
      rcases (mem_append_out n u _ st m y).mp known with before | ⟨source, _⟩
      · rcases covered y before bound with same | has
        · exact ⟨m, (mem_append_out n u u st m m).mpr (Or.inr ⟨rfl, rfl⟩), by rw [first],
            same.symm⟩
        · obtain ⟨z, stored, tag⟩ := List.mem_map.mp has
          exact ⟨z, (mem_append_out n u u st m z).mpr (Or.inl stored), (fresh z stored).le, tag⟩
      · have repeated : u ∈ x.hops.map Prod.fst :=
          List.mem_map.mpr ⟨x.first, x.first_mem_hops, source⟩
        rw [← new] at distinct
        exact absurd repeated (List.nodup_cons.mp distinct).1

/-- Whatever has been noted or read has arrived. -/
structure Delivered (n : Flood S A) : Prop where
  streams : n.Streams
  reads : ∀ t s, n.read t s ≤ (n.out s).length
  bounded : ∀ t u, n.remote t u ≤ n.clock u
  known : ∀ t u, n.Covers t (u, n.remote t u)
  read : ∀ t s, ∀ m ∈ (n.out s).take (n.read t s), n.Has t m.tag

omit [DecidableEq S] in
theorem start_delivered : (start : Flood S A).Delivered := by
  refine ⟨⟨?_, ?_, ?_, ?_, ?_, ?_, ?_⟩, ?_, ?_, ?_, ?_⟩ <;> simp [start, Covers]

omit [DecidableEq S] in
/-- Up to the stamp of the next message a stream has been read. -/
theorem Delivered.covers_next (delivered : n.Delivered) {t s : S} {m : Message S A}
    (next : (n.out s)[n.read t s]? = some m) :
    ∀ x ∈ n.out s, x.first.2 ≤ m.first.2 → x = m ∨ n.Has t x.tag := by
  intro x member bound
  obtain ⟨inside, found⟩ := List.getElem?_eq_some_iff.mp next
  have sorted := delivered.streams.sorted s
  rw [← List.take_append_drop (n.read t s) (n.out s), List.drop_eq_getElem_cons inside,
    found] at member sorted
  rcases List.mem_append.mp member with before | after
  · exact Or.inr (delivered.read t s x before)
  · rcases List.mem_cons.mp after with same | later
    · exact Or.inl same
    · have less := (List.pairwise_cons.mp (List.pairwise_append.mp sorted).2.1).1 x later
      omega

/-- A dropped message carries nothing new. -/
theorem Delivered.has_of_dropped (delivered : n.Delivered) {t s : S} {m : Message S A}
    (member : m ∈ n.out s) (dropped : ¬ passes t (n.remote t) m.hops = true) :
    n.Has t m.tag := by
  have first : ∀ s, ∀ m ∈ n.out s, ¬ fresh t (n.remote t) m.first = true → n.Has t m.tag := by
    intro s m member stale
    have source := delivered.streams.first s m member
    simp only [fresh, decide_eq_true_eq, not_and, not_lt, ne_eq] at stale
    by_cases own : m.first.1 = t
    · rw [← source, own] at member
      exact List.mem_map_of_mem member
    · have old := stale own
      rw [source] at old
      exact delivered.known t s m member old
  induction m using Message.hop_induction generalizing s with
  | own origin op =>
    apply first s _ member
    intro freshHop
    exact dropped (by simpa [passes, Message.hops, Message.first] using freshHop)
  | relayed m u stamp ih =>
    by_cases head : fresh t (n.remote t) (u, stamp) = true
    · apply ih (delivered.streams.nested s u stamp m member)
      intro rest
      apply dropped
      exact Bool.and_eq_true_iff.mpr ⟨head, rest⟩
    · exact first s _ member head

theorem Delivered.append (delivered : n.Delivered) {t : S} {stamp : ℕ}
    (later : n.clock t < stamp) {m : Message S A} (first : m.first = (t, stamp))
    (streams : (n.append t stamp m).Streams) : (n.append t stamp m).Delivered := by
  have grows : ∀ s tag, n.Has s tag → (n.append t stamp m).Has s tag := fun s tag has =>
    (has_append n t s stamp m tag).mpr (Or.inl has)
  refine ⟨streams, ?_, ?_, ?_, ?_⟩
  · intro r s
    have old := delivered.reads r s
    by_cases same : s = t
    · subst same
      simp only [Flood.append, Function.update_self, List.length_append]
      omega
    · simpa [Flood.append, same] using old
  · intro r u
    exact (delivered.bounded r u).trans (clock_le_append n later m u)
  · intro r u x member bound
    rcases (mem_append_out n t u stamp m x).mp member with old | ⟨here, new⟩
    · exact grows r _ (delivered.known r u x old bound)
    · rw [new, first] at bound
      have := delivered.bounded r u
      rw [here] at this
      change stamp ≤ n.remote r u at bound
      rw [here] at bound
      omega
  · intro r s x member
    apply grows
    apply delivered.read r s x
    by_cases same : s = t
    · subst same
      simp only [Flood.append, Function.update_self] at member
      rw [List.take_append_of_le_length (delivered.reads r s)] at member
      exact member
    · simpa [Flood.append, same] using member

theorem Delivered.skip (delivered : n.Delivered) {t s : S} {m : Message S A}
    (next : (n.out s)[n.read t s]? = some m) (has : n.Has t m.tag) :
    (n.skip t s m).Delivered := by
  obtain ⟨inside, found⟩ := List.getElem?_eq_some_iff.mp next
  have member : m ∈ n.out s := List.mem_of_getElem? next
  have streams := delivered.streams
  have covers : ∀ hop ∈ m.hops, n.Covers t hop := by
    apply streams.covers_hops (P := n.Has t) m s member
    intro x inStream bound
    rw [streams.first s m member] at inStream
    rcases delivered.covers_next next x inStream bound with same | arrived
    · rw [same]
      exact has
    · exact arrived
  refine ⟨⟨streams.first, streams.sorted, streams.clock, streams.positive, streams.distinct,
    streams.nested, streams.carried⟩, ?_, ?_, ?_, ?_⟩
  · intro r u
    have old := delivered.reads r u
    by_cases reader : r = t
    · subst reader
      by_cases source : u = s
      · subst source
        simpa [Flood.skip, Nat.succ_le_iff] using inside
      · simpa [Flood.skip, source] using old
    · simpa [Flood.skip, reader] using old
  · intro r u
    by_cases reader : r = t
    · subst reader
      simp only [Flood.skip, Function.update_self]
      rcases noteAll_cases r (n.remote r) m.hops u with same | hop
      · rw [same]
        exact delivered.bounded r u
      · obtain ⟨x, inStream, first, _⟩ := streams.hop_mem m s member _ hop
        have bound := streams.clock u x inStream
        rw [first] at bound
        exact bound
    · simpa [Flood.skip, reader] using delivered.bounded r u
  · intro r u
    by_cases reader : r = t
    · subst reader
      simp only [Flood.skip, Function.update_self]
      rcases noteAll_cases r (n.remote r) m.hops u with same | hop
      · rw [same]
        exact delivered.known r u
      · exact covers _ hop
    · have same : (n.skip t s m).remote r u = n.remote r u := by simp [Flood.skip, reader]
      rw [same]
      exact delivered.known r u
  · intro r u x taken
    by_cases reader : r = t
    · subst reader
      by_cases source : u = s
      · subst source
        simp only [Flood.skip, Function.update_self] at taken
        rw [List.take_succ_eq_append_getElem inside, found] at taken
        rcases List.mem_append.mp taken with old | new
        · exact delivered.read r u x old
        · rw [List.mem_singleton.mp new]
          exact has
      · simp only [Flood.skip, Function.update_self, ne_eq, source, not_false_eq_true,
          Function.update_of_ne] at taken
        exact delivered.read r u x taken
    · simp only [Flood.skip, ne_eq, reader, not_false_eq_true, Function.update_of_ne] at taken
      exact delivered.read r u x taken

theorem Delivered.emit (delivered : n.Delivered) {s : S} {stamp : ℕ} (later : n.clock s < stamp)
    (op : A) : (n.emit s stamp op).Delivered := by
  apply delivered.append later rfl
  apply delivered.streams.append later rfl
  · intro hop member
    rw [List.mem_singleton.mp member]
    exact (Nat.zero_le _).trans_lt later
  · simp [Message.hops]
  · intro u st x relayed
    cases congrArg Message.relays relayed

theorem Delivered.relay (delivered : n.Delivered) {t s : S} {stamp : ℕ} {m : Message S A}
    (later : n.clock t < stamp) (next : (n.out s)[n.read t s]? = some m)
    (accepted : passes t (n.remote t) m.hops = true) :
    (n.append t stamp (m.relay t stamp)).Delivered := by
  have member : m ∈ n.out s := List.mem_of_getElem? next
  have streams := delivered.streams
  apply delivered.append later rfl
  apply streams.append later rfl
  · intro hop inside
    rcases List.mem_cons.mp inside with same | deeper
    · rw [same]
      exact (Nat.zero_le _).trans_lt later
    · exact streams.positive s m member hop deeper
  · refine List.nodup_cons.mpr ⟨?_, streams.distinct s m member⟩
    intro repeated
    obtain ⟨hop, inside, same⟩ := List.mem_map.mp repeated
    have freshHop := List.all_eq_true.mp accepted hop inside
    simp only [fresh, decide_eq_true_eq] at freshHop
    exact freshHop.1 same
  · intro u st x relayed
    have same : m = x := by
      obtain ⟨relays, origin, op⟩ := m
      obtain ⟨relays', origin', op'⟩ := x
      simp only [Message.relay, Message.mk.injEq, List.cons.injEq] at relayed
      rw [relayed.1.2, relayed.2.1, relayed.2.2]
    subst same
    rw [streams.first s m member]
    refine ⟨member, fun y inStream bound => ?_⟩
    exact (delivered.covers_next next y inStream bound).imp_left fun same => by rw [same]; rfl

theorem Delivered.receive (delivered : n.Delivered) {t s : S} {stamp : ℕ} {m : Message S A}
    (apart : t ≠ s) (later : n.clock t < stamp) (next : (n.out s)[n.read t s]? = some m) :
    (n.receive t s stamp m).Delivered := by
  unfold Flood.receive
  split
  · rename_i accepted
    have relayed := delivered.relay later next accepted
    have next' : ((n.append t stamp (m.relay t stamp)).out s)[n.read t s]? = some m := by
      simpa [Flood.append, apart.symm] using next
    apply relayed.skip next'
    exact (has_append n t t stamp _ _).mpr (Or.inr ⟨rfl, rfl⟩)
  · rename_i dropped
    exact delivered.skip next (delivered.has_of_dropped (List.mem_of_getElem? next) dropped)

/-- The operations of `o` that have reached `t`, in the order of their arrival. -/
def arrived (n : Flood S A) (t o : S) : List ((S × ℕ) × A) :=
  ((n.out t).filter fun m => m.origin.1 = o).map Message.tag

theorem arrived_append (n : Flood S A) (t s o : S) (stamp : ℕ) (m : Message S A) :
    (n.append t stamp m).arrived s o =
      n.arrived s o ++ if s = t ∧ m.origin.1 = o then [m.tag] else [] := by
  by_cases same : s = t
  · subst same
    by_cases origin : m.origin.1 = o <;> simp [arrived, append, origin]
  · simp [arrived, append, same]

theorem arrived_emit (n : Flood S A) (s t o : S) (stamp : ℕ) (op : A) :
    (n.emit s stamp op).arrived t o =
      n.arrived t o ++ if t = s ∧ s = o then [((s, stamp), op)] else [] :=
  arrived_append n s t o stamp _

theorem arrived_receive {n : Flood S A} {t s : S} {m : Message S A} (stamp : ℕ)
    (accepted : passes t (n.remote t) m.hops = true) (r o : S) :
    (n.receive t s stamp m).arrived r o =
      n.arrived r o ++ if r = t ∧ m.origin.1 = o then [m.tag] else [] := by
  unfold receive
  rw [if_pos accepted, arrived_append]
  rfl

/-- A server accepts nothing that started with itself. -/
theorem arrived_receive_self {n : Flood S A} {t s : S} {m : Message S A} (stamp : ℕ)
    (accepted : passes t (n.remote t) m.hops = true) (o : S) :
    (n.receive t s stamp m).arrived o o = n.arrived o o := by
  have freshOrigin := List.all_eq_true.mp accepted m.origin m.origin_mem_hops
  simp only [fresh, decide_eq_true_eq] at freshOrigin
  rw [arrived_receive stamp accepted, if_neg, List.append_nil]
  intro ⟨here, origin⟩
  exact freshOrigin.1 (origin.trans here)

theorem mem_arrived {n : Flood S A} {t o : S} {tag : (S × ℕ) × A} :
    tag ∈ n.arrived t o ↔ n.Has t tag ∧ tag.1.1 = o := by
  simp only [arrived, Has, List.mem_map, List.mem_filter, decide_eq_true_eq]
  constructor
  · intro ⟨m, ⟨member, origin⟩, same⟩
    subst same
    exact ⟨⟨m, member, rfl⟩, origin⟩
  · intro ⟨⟨m, member, same⟩, origin⟩
    subst same
    exact ⟨m, ⟨member, origin⟩, rfl⟩

/-- The operations of each server arrive everywhere once and in their order. -/
structure InOrder (n : Flood S A) : Prop where
  noted : ∀ t, ∀ m ∈ n.out t, m.origin.1 ≠ t → m.origin.2 ≤ n.remote t m.origin.1
  ordered : ∀ t o, n.arrived t o <+: n.arrived o o

theorem start_inOrder : (start : Flood S A).InOrder :=
  ⟨by simp [start], by simp [start, arrived]⟩

/-- In its own stream, a server's own operations stand in the order of their stamps. -/
theorem Streams.arrived_self_sorted (streams : n.Streams) (o : S) :
    (n.arrived o o).Pairwise fun a b => a.1.2 < b.1.2 := by
  unfold arrived
  rw [List.pairwise_map]
  have sorted := (streams.sorted o).sublist (List.filter_sublist (p := fun m => m.origin.1 = o))
  refine sorted.imp_of_mem ?_
  have stamp : ∀ m ∈ (n.out o).filter (fun m => m.origin.1 = o), m.first = m.origin := by
    intro m member
    obtain ⟨inStream, origin⟩ := List.mem_filter.mp member
    rw [← of_decide_eq_true origin] at inStream
    exact streams.first_eq_origin inStream
  intro a b memberA memberB less
  rw [stamp a memberA, stamp b memberB] at less
  exact less

/-- What is accepted next from a server is its next operation. -/
theorem Delivered.arrived_relay (delivered : n.Delivered) (inOrder : n.InOrder) {t s : S}
    {m : Message S A} (next : (n.out s)[n.read t s]? = some m)
    (accepted : passes t (n.remote t) m.hops = true) :
    n.arrived t m.origin.1 ++ [m.tag] <+: n.arrived m.origin.1 m.origin.1 := by
  have member : m ∈ n.out s := List.mem_of_getElem? next
  have streams := delivered.streams
  have own := streams.own_mem member
  have freshOrigin := List.all_eq_true.mp accepted m.origin m.origin_mem_hops
  simp only [fresh, decide_eq_true_eq] at freshOrigin
  have issued : m.tag ∈ n.arrived m.origin.1 m.origin.1 :=
    mem_arrived.mpr ⟨List.mem_map.mpr ⟨_, own, rfl⟩, rfl⟩
  have sorted := streams.arrived_self_sorted m.origin.1
  -- everything older than the message has arrived, and nothing newer has
  have older : ∀ tag ∈ n.arrived m.origin.1 m.origin.1, tag.1.2 < m.origin.2 → n.Has t tag := by
    intro tag inStream less
    obtain ⟨⟨x, stored, same⟩, origin⟩ := mem_arrived.mp inStream |>.imp_left List.mem_map.mp
    subst same
    have first : x.first = x.origin := by
      rw [← origin] at stored
      exact streams.first_eq_origin stored
    have either := streams.covers_hops (P := fun tag => tag = m.tag ∨ n.Has t tag) m s member
      (by
        rw [streams.first s m member]
        intro y inside bound
        exact (delivered.covers_next next y inside bound).imp_left (congrArg Message.tag))
      m.origin m.origin_mem_hops x stored (by rw [first]; exact less.le)
    rcases either with same | has
    · rw [same] at less
      exact absurd less (lt_irrefl _)
    · exact has
  have notYet : ∀ tag ∈ n.arrived t m.origin.1, tag.1.2 < m.origin.2 := by
    intro tag here
    obtain ⟨⟨x, stored, same⟩, origin⟩ := mem_arrived.mp here |>.imp_left List.mem_map.mp
    subst same
    change x.origin.1 = m.origin.1 at origin
    have old := inOrder.noted t x stored (by rw [origin]; exact freshOrigin.1)
    rw [origin] at old
    exact old.trans_lt freshOrigin.2
  obtain ⟨rest, split⟩ := inOrder.ordered t m.origin.1
  rw [← split] at issued sorted
  rcases List.mem_append.mp issued with before | after
  · exact absurd (notYet _ before) (lt_irrefl _)
  · cases rest with
    | nil => cases after
    | cons head tail =>
        have same : head = m.tag := by
          rcases List.mem_cons.mp after with same | later
          · exact same.symm
          · obtain ⟨_, inRest, across⟩ := List.pairwise_append.mp sorted
            have less := (List.pairwise_cons.mp inRest).1 _ later
            have inStream : head ∈ n.arrived m.origin.1 m.origin.1 := by
              rw [← split]
              exact List.mem_append_right _ List.mem_cons_self
            have has := mem_arrived.mpr ⟨older head inStream less, (mem_arrived.mp inStream).2⟩
            exact absurd (across head has head List.mem_cons_self) (lt_irrefl _)
        refine ⟨tail, ?_⟩
        rw [← split, same, List.append_assoc]
        rfl

theorem InOrder.emit (inOrder : n.InOrder) (s : S) (stamp : ℕ) (op : A) :
    (n.emit s stamp op).InOrder := by
  refine ⟨?_, ?_⟩
  · intro t m member other
    rcases (mem_append_out n s t stamp _ m).mp member with old | ⟨here, new⟩
    · exact inOrder.noted t m old other
    · rw [new, here] at other
      exact absurd rfl other
  · intro t o
    rw [arrived_emit, arrived_emit]
    have old := inOrder.ordered t o
    by_cases own : s = o
    · subst own
      by_cases same : t = s
      · subst same
        exact List.prefix_rfl
      · simp only [same, false_and, if_false, List.append_nil]
        exact old.trans (List.prefix_append _ _)
    · simp only [own, and_false, if_false, List.append_nil]
      exact old

theorem InOrder.skip (inOrder : n.InOrder) (t s : S) (m : Message S A) :
    (n.skip t s m).InOrder := by
  refine ⟨?_, inOrder.ordered⟩
  intro r x member other
  have old := inOrder.noted r x member other
  by_cases reader : r = t
  · subst reader
    simp only [Flood.skip, Function.update_self]
    exact old.trans (le_noteAll r (n.remote r) m.hops _)
  · simpa [Flood.skip, reader] using old

theorem Delivered.receive_inOrder (delivered : n.Delivered) (inOrder : n.InOrder) {t s : S}
    {m : Message S A} (stamp : ℕ) (next : (n.out s)[n.read t s]? = some m) :
    (n.receive t s stamp m).InOrder := by
  have skipped := inOrder.skip t s m
  by_cases accepted : passes t (n.remote t) m.hops = true
  · refine ⟨?_, ?_⟩
    · intro r x member other
      unfold Flood.receive at *
      rw [if_pos accepted] at *
      rcases (mem_append_out _ t r stamp _ x).mp member with old | ⟨here, new⟩
      · exact skipped.noted r x old other
      · rw [here, new]
        simp only [Flood.append, Flood.skip, Function.update_self]
        exact stamp_le_noteAll accepted m.origin_mem_hops
    · intro r o
      rw [arrived_receive stamp accepted, arrived_receive_self stamp accepted]
      by_cases new : r = t ∧ m.origin.1 = o
      · rw [if_pos new]
        obtain ⟨reader, origin⟩ := new
        subst reader origin
        exact delivered.arrived_relay inOrder next accepted
      · rw [if_neg new, List.append_nil]
        exact inOrder.ordered r o
  · unfold Flood.receive
    rw [if_neg accepted]
    exact skipped

omit [DecidableEq S] in
/-- The hops of a message are distinct, so it is not nested deeper than there are servers. -/
theorem Streams.hops_length_le [Fintype S] (streams : n.Streams) {s : S} {m : Message S A}
    (member : m ∈ n.out s) : m.hops.length ≤ Fintype.card S := by
  have bound := (streams.distinct s m member).length_le_card
  rwa [List.length_map] at bound

/-- Where a server has read every stream, all operations have arrived. -/
theorem Delivered.arrived_eq (delivered : n.Delivered) (inOrder : n.InOrder) {t o : S}
    (all : t ≠ o → n.read t o = (n.out o).length) : n.arrived t o = n.arrived o o := by
  by_cases same : t = o
  · rw [same]
  · obtain ⟨rest, split⟩ := inOrder.ordered t o
    cases rest with
    | nil => rw [← split, List.append_nil]
    | cons head tail =>
        have sorted := delivered.streams.arrived_self_sorted o
        have inStream : head ∈ n.arrived o o := by
          rw [← split]
          exact List.mem_append_right _ List.mem_cons_self
        obtain ⟨has, origin⟩ := mem_arrived.mp inStream
        obtain ⟨m, stored, tag⟩ := List.mem_map.mp has
        have taken : m ∈ (n.out o).take (n.read t o) := by
          rw [all same, List.take_length]
          exact stored
        have here : head ∈ n.arrived t o :=
          mem_arrived.mpr ⟨tag ▸ delivered.read t o m taken, origin⟩
        rw [← split] at sorted
        have less := (List.pairwise_append.mp sorted).2.2 head here head List.mem_cons_self
        exact absurd less (lt_irrefl _)

end Flood

end StampedFlood
