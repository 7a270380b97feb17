import VaultDB.Server

/-! # What a client receives

Client sockets do not block, so `send` may take a part of a response or
nothing of it, and `handle_client` does not look at what it returns. Each byte
of the responses due to a client has a place in their concatenation; what the
client receives begins with place 0 and has no gap exactly when a `send` that
fell short is the last one that takes anything (`no_byte_lost_iff`).
-/

namespace VaultDB

open Text

namespace World

/-- The bytes due to the client, each with its place. -/
def due (exchanges : List Exchange) : List (UInt8 × Nat) :=
  (exchanges.flatMap Exchange.response).zipIdx

/-- The bytes delivered to the client, each with its place among the bytes due,
from `place` on. -/
def delivered : Nat → List Exchange → List (UInt8 × Nat)
  | _, [] => []
  | place, x :: exchanges =>
    (x.response.zipIdx place).take x.accepted ++ delivered (place + x.response.length) exchanges

/-- The bytes the client reads. -/
def receivedBytes (exchanges : List Exchange) : Bytes :=
  exchanges.flatMap fun x => x.response.take x.accepted

/-- At every time, the bytes delivered are the first ones due. -/
def InOrder (exchanges : List Exchange) : Prop :=
  ∀ sofar, sofar <+: exchanges → delivered 0 sofar <+: due sofar

/-- After a `send` that did not take its whole response, none takes anything. -/
def Stops (exchanges : List Exchange) : Prop :=
  exchanges.Pairwise fun x later => x.accepted < x.response.length → later.accepted = 0

instance (exchanges : List Exchange) : Decidable (Stops exchanges) :=
  inferInstanceAs (Decidable (List.Pairwise _ _))

theorem map_fst_delivered (place : Nat) (exchanges : List Exchange) :
    (delivered place exchanges).map Prod.fst = receivedBytes exchanges := by
  unfold receivedBytes
  induction exchanges generalizing place with
  | nil => rfl
  | cons x exchanges ih =>
      rw [delivered, List.map_append, ih, List.map_take, List.zipIdx_map_fst, List.flatMap_cons]

/-- In order by places is in order by bytes. -/
theorem InOrder.bytes {exchanges : List Exchange} (h : InOrder exchanges) :
    receivedBytes exchanges <+: exchanges.flatMap Exchange.response := by
  have hmap := (h exchanges List.prefix_rfl).map Prod.fst
  rw [map_fst_delivered, due, List.zipIdx_map_fst] at hmap
  exact hmap

theorem le_of_mem_delivered {place : Nat} {exchanges : List Exchange} {p : UInt8 × Nat}
    (h : p ∈ delivered place exchanges) : place ≤ p.2 := by
  induction exchanges generalizing place with
  | nil => cases h
  | cons x exchanges ih =>
      rcases List.mem_append.mp h with h | h
      · exact List.le_snd_of_mem_zipIdx (List.mem_of_mem_take h)
      · have hle := ih h
        omega

/-- Nothing is delivered where no `send` takes anything. -/
theorem delivered_eq_nil_iff {place : Nat} {exchanges : List Exchange}
    (haccepted : ∀ x ∈ exchanges, x.accepted ≤ x.response.length) :
    delivered place exchanges = [] ↔ ∀ x ∈ exchanges, x.accepted = 0 := by
  induction exchanges generalizing place with
  | nil => simp [delivered]
  | cons x exchanges ih =>
      have hx := haccepted x List.mem_cons_self
      have hnone : (x.response.zipIdx place).take x.accepted = [] ↔ x.accepted = 0 := by
        rw [← List.length_eq_zero_iff, List.length_take, List.length_zipIdx]
        omega
      rw [delivered, List.append_eq_nil_iff, hnone,
        ih fun y hy => haccepted y (List.mem_cons_of_mem _ hy)]
      simp

/-- Behind a short `send` nothing more may be delivered: it would have a place
further on than the byte that is due. -/
theorem eq_nil_of_gap {due later rest : List (UInt8 × Nat)} {n place : Nat}
    (hn : n < due.length) (hdue : ∀ p ∈ due, p.2 < place) (hlater : ∀ p ∈ later, place ≤ p.2)
    (h : due.take n ++ later <+: due ++ rest) : later = [] := by
  rcases h with ⟨tail, htail⟩
  cases later with
  | nil => rfl
  | cons p later =>
      have hlen : (due.take n).length = n := by
        rw [List.length_take]
        omega
      -- the byte at position `n` is one that is still due
      have hat : (due.take n ++ p :: later ++ tail)[n]? = some p := by
        rw [List.append_assoc, List.getElem?_append_right (by omega), hlen]
        simp
      have hdueAt : (due ++ rest)[n]? = some due[n] := by
        rw [List.getElem?_append_left hn, List.getElem?_eq_getElem hn]
      rw [htail, hdueAt] at hat
      have heq : p = due[n] := (Option.some.inj hat).symm
      have hlow := hdue p (heq ▸ List.getElem_mem hn)
      have hhigh := hlater p List.mem_cons_self
      omega

/-- Behind a short `send` the bytes delivered are the first ones due only if
there are no more of them. -/
theorem delivered_cons_isPrefix_iff {place : Nat} {x : Exchange} {exchanges : List Exchange}
    (hshort : x.accepted < x.response.length) (rest : List (UInt8 × Nat)) :
    delivered place (x :: exchanges) <+: x.response.zipIdx place ++ rest ↔
      delivered (place + x.response.length) exchanges = [] := by
  rw [delivered]
  constructor
  · intro h
    have hlen : x.accepted < (x.response.zipIdx place).length := by
      rw [List.length_zipIdx]
      exact hshort
    exact eq_nil_of_gap hlen (fun p hp => List.snd_lt_add_of_mem_zipIdx hp)
      (fun p hp => le_of_mem_delivered hp) h
  · intro hnil
    rw [hnil, List.append_nil]
    exact (List.take_prefix _ _).trans (List.prefix_append _ _)

theorem delivered_isPrefix_iff {place : Nat} {exchanges : List Exchange}
    (haccepted : ∀ x ∈ exchanges, x.accepted ≤ x.response.length) :
    delivered place exchanges <+: (exchanges.flatMap Exchange.response).zipIdx place ↔
      Stops exchanges := by
  unfold Stops
  induction exchanges generalizing place with
  | nil => simp [delivered]
  | cons x exchanges ih =>
      have hx := haccepted x List.mem_cons_self
      have hrest : ∀ y ∈ exchanges, y.accepted ≤ y.response.length :=
        fun y hy => haccepted y (List.mem_cons_of_mem _ hy)
      rw [List.flatMap_cons, List.zipIdx_append, List.pairwise_cons]
      by_cases hshort : x.accepted < x.response.length
      · rw [delivered_cons_isPrefix_iff hshort, delivered_eq_nil_iff hrest]
        constructor
        · intro hzero
          refine ⟨fun y hy _ => hzero y hy, ?_⟩
          exact List.pairwise_of_forall_mem_list fun y _ z hz _ => hzero z hz
        · intro hstops y hy
          exact hstops.1 y hy hshort
      · -- the whole response was taken, and the rest decides
        have hall : (x.response.zipIdx place).take x.accepted = x.response.zipIdx place := by
          apply List.take_of_length_le
          rw [List.length_zipIdx]
          omega
        rw [delivered, hall, List.prefix_append_right_inj, ih hrest]
        constructor
        · intro hstops
          exact ⟨fun _ _ h => absurd h hshort, hstops⟩
        · intro hstops
          exact hstops.2

theorem inOrder_iff_stops {exchanges : List Exchange}
    (haccepted : ∀ x ∈ exchanges, x.accepted ≤ x.response.length) :
    InOrder exchanges ↔ Stops exchanges := by
  constructor
  · intro hinorder
    exact (delivered_isPrefix_iff haccepted).mp (hinorder _ List.prefix_rfl)
  · -- what holds of all exchanges holds of the first ones
    intro hstops sofar hsofar
    exact (delivered_isPrefix_iff fun x hx => haccepted x (hsofar.subset hx)).mpr
      (hstops.sublist hsofar.sublist)

/-- For every client of every run: at all times the bytes delivered to it are
the first ones of the responses due to it exactly when no `send` takes
anything after one that fell short. -/
theorem no_byte_lost_iff {engine : LSMEngine} {evs : List ServerEvent} {w : World}
    (hclosed : Machine.Along step AcceptsClosed (start engine) evs)
    (hrun : Machine.run step (start engine) evs = some w) {p : Int × Client}
    (hp : p ∈ w.clients ++ w.past) : InOrder p.2.exchanges ↔ Stops p.2.exchanges := by
  have h := (isolated_start engine).run hclosed hrun
  have hserved : Served p.2 := by
    rcases List.mem_append.mp hp with hp | hp
    · exact h.served p hp
    · exact h.past p hp
  exact inOrder_iff_stops hserved.accepted

/-- Two commands in one chunk, `send` having room for `n` bytes of the first response. -/
def pipelined (n : Nat) : List ServerEvent :=
  [.round (some 4) [],
    .round none [⟨4, some (ascii "PING\nGET x\n"), fun _ => ExecEnv.calm 1,
      fun i => if i = 0 then n else 4096⟩]]

theorem no_byte_lost_iff_pipelined :
    ∃ w, Machine.run step (start (LSMEngine.start (ascii "./data") 10 100)) (pipelined 5) =
      some w ∧ ∀ p ∈ w.clients ++ w.past, InOrder p.2.exchanges := by
  have hran : (Machine.run step (start (LSMEngine.start (ascii "./data") 10 100))
      (pipelined 5)).map (fun w => decide (∀ p ∈ w.clients ++ w.past, Stops p.2.exchanges)) =
      some true := by decide
  rcases Option.map_eq_some_iff.mp hran with ⟨w, hrun, hstops⟩
  refine ⟨w, hrun, ?_⟩
  intro p hp
  exact (no_byte_lost_iff (by decide) hrun hp).mpr (of_decide_eq_true hstops p hp)

/-- The first `send` takes two bytes and the second one takes everything: the
client reads the end of the second response behind the beginning of the first. -/
theorem short_send_loses :
    ∃ w c, Machine.run step (start (LSMEngine.start (ascii "./data") 10 100)) (pipelined 2) =
        some w ∧ Assoc.get 4 w.clients = some c ∧
      receivedBytes c.exchanges = ascii "PONULL\n" ∧
      c.exchanges.flatMap Exchange.response = ascii "PONG\nNULL\n" ∧
      ¬ receivedBytes c.exchanges <+: c.exchanges.flatMap Exchange.response := by
  have hran : (Machine.run step (start (LSMEngine.start (ascii "./data") 10 100))
      (pipelined 2)).map (fun w => Assoc.get 4 w.clients) =
      some (some ⟨ascii "PING\nGET x\n", [⟨ascii "PING", ascii "PONG\n", 2⟩,
        ⟨ascii "GET x", ascii "NULL\n", 5⟩]⟩) := by decide
  rcases Option.map_eq_some_iff.mp hran with ⟨w, hrun, hclient⟩
  exact ⟨w, _, hrun, hclient, by decide, by decide, by decide⟩

end World

end VaultDB
