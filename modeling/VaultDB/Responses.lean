import VaultDB.Delivery
import VaultDB.Framing

/-! # Response framing

The n-th response line that a client reads is the response to its n-th command
line, over all runs of the server in which no table is written over a live one
that does not fit it (`responses_framed`).

Two flushes in one millisecond do that: the second file takes the place of the
first one, whose table seeks in it to an offset of its own and may take the
length field of an entry, with a newline in it, for a part of a value
(`newline_inside`).
-/

namespace VaultDB

open Text Codec FileStream SSTable

namespace World

open LSMEngine

/-! ## Turns of the server -/

/-- What happens to the engine while the commands of a chunk are executed. -/
def chunkEvents (envs : Nat → ExecEnv) : Nat → List Bytes → List Event
  | _, [] => []
  | i, line :: lines => Parser.events (Parser.parse line) (envs i) ++ chunkEvents envs (i + 1) lines

theorem commandLoop_aligned {envs : Nat → ExecEnv} {room : Nat → Nat} {i : Nat}
    {lines : List Bytes} {e e' : LSMEngine} {exchanges : List Exchange} (he : Aligned e)
    (henvs : ∀ i, (envs i).Quiet)
    (hunharmed : Machine.Along LSMEngine.step LSMEngine.Unharmed e (chunkEvents envs i lines))
    (h : commandLoop envs room i lines e = some (e', exchanges)) :
    Aligned e' ∧ ∀ x ∈ exchanges, Framed x.response := by
  induction lines generalizing i e exchanges with
  | nil =>
      simp only [commandLoop, Option.some.injEq, Prod.mk.injEq] at h
      rw [← h.1, ← h.2]
      exact ⟨he, by simp⟩
  | cons line lines ih =>
      rcases Machine.along_append.mp hunharmed with ⟨hfirst, hrest⟩
      rcases commandLoop_cons.mp h with ⟨response, e₁, later, hexecute, hloop, rfl⟩
      rcases Parser.execute_aligned he (henvs i) hfirst hexecute with ⟨hrun, he₁, hframed⟩
      rcases ih he₁ (hrest e₁ hrun) hloop with ⟨he₂, hframed₂⟩
      refine ⟨he₂, ?_⟩
      intro x hx
      rcases List.mem_cons.mp hx with rfl | hx
      · exact hframed
      · exact hframed₂ x hx

/-- What happens to the engine while a descriptor is handled. -/
def readyEvents (w : World) (r : Ready) : List Event :=
  match r.data, Assoc.get r.fd w.connections with
  | some chunk, some conn =>
    if chunk = [] then []
    else chunkEvents r.envs 0 (Connection.commandLines (conn.buffer ++ chunk))
  | _, _ => []

/-- Every step of the engine while these descriptors are handled meets `P`. -/
def AlongAll (P : LSMEngine → Event → Prop) : World → List Ready → Prop
  | _, [] => True
  | w, r :: ready =>
    Machine.Along LSMEngine.step P w.engine (readyEvents w r) ∧
      ∀ alive w', w.handleClient r = some (alive, w') → AlongAll P w' ready

/-- No step of the engine, and no start, writes over a live table that does not
fit what is written. -/
def Unharmed (w : World) : ServerEvent → Prop
  | .round accepted ready => AlongAll LSMEngine.Unharmed (w.acceptConnection accepted) ready
  | .compact env => LSMEngine.Unharmed w.engine ⟨.compact, env⟩
  | .restart _ memtableSizeBytes env =>
    UnharmedStart w.engine.disk w.engine.dataDir memtableSizeBytes env.now

/-- Every table file is written under a name of its own. -/
def FreshNames (w : World) : ServerEvent → Prop
  | .round accepted ready => AlongAll Fresh (w.acceptConnection accepted) ready
  | .compact env => Fresh w.engine ⟨.compact, env⟩
  | .restart _ _ env =>
    sstablePath w.engine.dataDir env.now ∉ tablePaths w.engine.disk.tables

/-- No device fails. -/
def Quiet : ServerEvent → Prop
  | .round _ ready => ∀ r ∈ ready, ∀ i, (r.envs i).Quiet
  | .compact env => env.Quiet
  | .restart _ _ env => env.Quiet

theorem AlongAll.mono {P P' : LSMEngine → Event → Prop} (himp : ∀ e ev, P e ev → P' e ev)
    {w : World} {ready : List Ready} (h : AlongAll P w ready) : AlongAll P' w ready := by
  induction ready generalizing w with
  | nil => trivial
  | cons r ready ih =>
      exact ⟨h.1.mono himp, fun alive w' hhandle => ih (h.2 alive w' hhandle)⟩

theorem unharmed_of_freshNames {w : World} {ev : ServerEvent} (h : FreshNames w ev) :
    Unharmed w ev := by
  cases ev with
  | round accepted ready => exact AlongAll.mono (fun _ _ => unharmed_of_fresh) h
  | compact env => exact unharmed_of_fresh h
  | restart cacheSize memtableSizeBytes env => exact unharmedStart_of_fresh h

instance decidableAlongAll {P : LSMEngine → Event → Prop} [∀ e ev, Decidable (P e ev)] :
    (w : World) → (ready : List Ready) → Decidable (AlongAll P w ready)
  | _, [] => isTrue trivial
  | w, r :: ready =>
    match h : w.handleClient r with
    | none =>
      decidable_of_iff (Machine.Along LSMEngine.step P w.engine (readyEvents w r))
        ⟨fun halong => ⟨halong, fun _ _ hhandle => by rw [h] at hhandle; cases hhandle⟩,
          fun hall => hall.1⟩
    | some (alive, w') =>
      have : Decidable (AlongAll P w' ready) := decidableAlongAll w' ready
      decidable_of_iff
        (Machine.Along LSMEngine.step P w.engine (readyEvents w r) ∧ AlongAll P w' ready)
        ⟨fun hall => ⟨hall.1, fun _ _ hhandle => by
          rw [h] at hhandle
          cases hhandle
          exact hall.2⟩, fun hall => ⟨hall.1, hall.2 alive w' h⟩⟩

instance (w : World) : (ev : ServerEvent) → Decidable (FreshNames w ev)
  | .round accepted ready =>
    inferInstanceAs (Decidable (AlongAll Fresh (w.acceptConnection accepted) ready))
  | .compact env => inferInstanceAs (Decidable (Fresh w.engine ⟨.compact, env⟩))
  | .restart _ _ _ => inferInstanceAs (Decidable (¬ _))

/-- The exchange is one of a client, open or closed. -/
def Noted (w : World) (x : Exchange) : Prop := ∃ p ∈ w.clients ++ w.past, x ∈ p.2.exchanges

/-- The engine is aligned, and every response so far was in one line. -/
structure Lined (w : World) : Prop where
  engine : Aligned w.engine
  framed : ∀ x, Noted w x → Framed x.response

theorem mem_update {fd : Int} {f : Client → Client} {clients : List (Int × Client)}
    {p : Int × Client} (h : p ∈ update fd f clients) :
    p ∈ clients ∨ ∃ client, (fd, client) ∈ clients ∧ p = (fd, f client) := by
  unfold update at h
  cases hclient : Assoc.get fd clients with
  | none =>
      rw [hclient] at h
      exact Or.inl h
  | some client =>
      rw [hclient] at h
      rcases Assoc.mem_put h with rfl | h
      · exact Or.inr ⟨client, Assoc.mem_of_get hclient, rfl⟩
      · exact Or.inl h

/-- Exchanges are added to one client only. -/
theorem noted_update {w w' : World} {x : Exchange} (h : Noted w' x) {fd : Int}
    {f : Client → Client} {added : List Exchange}
    (hclients : w'.clients = update fd f w.clients) (hpast : w'.past = w.past)
    (hf : ∀ c, (f c).exchanges = c.exchanges ++ added) : Noted w x ∨ x ∈ added := by
  rcases h with ⟨p, hp, hx⟩
  rw [hclients, hpast] at hp
  rcases List.mem_append.mp hp with hp | hp
  · rcases mem_update hp with hp | ⟨client, hclient, rfl⟩
    · exact Or.inl ⟨p, List.mem_append_left _ hp, hx⟩
    · rw [hf, List.mem_append] at hx
      exact hx.imp_left fun hx => ⟨_, List.mem_append_left _ hclient, hx⟩
  · exact Or.inl ⟨p, List.mem_append_right _ hp, hx⟩

theorem Lined.acceptConnection {w : World} (h : Lined w) (accepted : Option Int) :
    Lined (w.acceptConnection accepted) := by
  cases accepted with
  | none => exact h
  | some fd =>
      refine ⟨h.engine, ?_⟩
      rintro x ⟨p, hp, hx⟩
      rcases List.mem_append.mp hp with hp | hp
      · rcases Assoc.mem_put hp with rfl | hp
        · -- a new client has no exchange
          cases hx
        · exact h.framed x ⟨p, List.mem_append_left _ hp, hx⟩
      · exact h.framed x ⟨p, List.mem_append_right _ hp, hx⟩

theorem Lined.handleClient {w w' : World} (h : Lined w) {r : Ready} {alive : Bool}
    (hquiet : ∀ i, (r.envs i).Quiet)
    (hunharmed : Machine.Along LSMEngine.step LSMEngine.Unharmed w.engine (readyEvents w r))
    (hhandle : w.handleClient r = some (alive, w')) : Lined w' := by
  cases handled hhandle with
  | idle hdata heq =>
      rw [heq]
      exact h
  | unknown chunk hconn heq =>
      rw [heq]
      refine ⟨h.engine, ?_⟩
      intro x hx
      rcases noted_update hx rfl rfl fun c => (List.append_nil _).symm with hx | hx
      · exact h.framed x hx
      · cases hx
  | served chunk conn engine exchanges hdata hne hconn hloop heq =>
      unfold readyEvents at hunharmed
      simp only [hdata, hconn, if_neg hne] at hunharmed
      rcases commandLoop_aligned h.engine hquiet hunharmed hloop with ⟨hengine, hframed⟩
      rw [heq]
      refine ⟨hengine, ?_⟩
      intro x hx
      rcases noted_update hx rfl rfl fun c => rfl with hx | hx
      · exact h.framed x hx
      · exact hframed x hx

theorem Lined.handleAll {w w' : World} (h : Lined w) {ready : List Ready} {toRemove : List Int}
    (hquiet : ∀ r ∈ ready, ∀ i, (r.envs i).Quiet) (hunharmed : AlongAll LSMEngine.Unharmed w ready)
    (hhandle : handleAll w ready = some (toRemove, w')) : Lined w' := by
  induction ready generalizing w toRemove with
  | nil =>
      simp only [World.handleAll, Option.some.injEq, Prod.mk.injEq] at hhandle
      rw [← hhandle.2]
      exact h
  | cons r ready ih =>
      rcases handleAll_cons hhandle with ⟨alive, w₁, removed, hfirst, hrest⟩
      have h₁ := h.handleClient (hquiet r List.mem_cons_self) hunharmed.1 hfirst
      exact ih h₁ (fun r hr => hquiet r (List.mem_cons_of_mem _ hr))
        (hunharmed.2 alive w₁ hfirst) hrest

theorem Lined.closeConnection {w : World} (h : Lined w) (fd : Int) :
    Lined (w.closeConnection fd) := by
  refine ⟨h.engine, ?_⟩
  rintro x ⟨p, hp, hx⟩
  apply h.framed x
  rcases List.mem_append.mp hp with hp | hp
  · exact ⟨p, List.mem_append_left _ (Assoc.mem_of_mem_erase hp), hx⟩
  · rcases List.mem_append.mp hp with hp | hp
    · exact ⟨p, List.mem_append_right _ hp, hx⟩
    · rcases Option.map_eq_some_iff.mp (Option.mem_toList.mp hp) with ⟨client, hget, rfl⟩
      exact ⟨_, List.mem_append_left _ (Assoc.mem_of_get hget), hx⟩

theorem Lined.closeAll {w : World} (h : Lined w) (toRemove : List Int) :
    Lined (toRemove.foldl World.closeConnection w) := by
  induction toRemove generalizing w with
  | nil => exact h
  | cons fd toRemove ih => exact ih (h.closeConnection fd)

theorem Lined.step {w w' : World} (h : Lined w) {ev : ServerEvent} (hquiet : Quiet ev)
    (hunharmed : Unharmed w ev) (hstep : w.step ev = some w') : Lined w' := by
  cases ev with
  | round accepted ready =>
      rcases step_round hstep with ⟨toRemove, w₁, hhandle, rfl⟩
      exact ((h.acceptConnection accepted).handleAll hquiet hunharmed hhandle).closeAll toRemove
  | compact env =>
      cases hstep
      have hcareful : Careful w.engine ⟨.compact, env⟩ := ⟨hquiet, trivial, hunharmed⟩
      exact ⟨h.engine.step hcareful rfl, h.framed⟩
  | restart cacheSize memtableSizeBytes env =>
      cases hstep
      refine ⟨?_, ?_⟩
      · have hdev : env.dev = Device.sound := hquiet.2
        show Aligned (LSMEngine.new _ _ _ _ _ env.dev)
        rw [hdev]
        exact h.engine.restart _ _ hunharmed
      · rintro x ⟨p, hp, hx⟩
        rw [List.nil_append, List.mem_append] at hp
        exact h.framed x ⟨p, List.mem_append.mpr hp.symm, hx⟩

theorem lined_start (dataDir : Bytes) (cacheSize : Nat) (memtableSizeBytes : UInt64) :
    Lined (start (LSMEngine.start dataDir cacheSize memtableSizeBytes)) := by
  refine ⟨aligned_start dataDir cacheSize memtableSizeBytes, ?_⟩
  rintro x ⟨p, hp, hx⟩
  cases hp

/-! ## Lines of responses -/

/-- A response without its newline. -/
def responseLine (x : Exchange) : Bytes := x.response.dropLast

/-- The n-th response line is the response to the n-th command line, in what is
due to the client, and in what it reads as far as nothing was lost. -/
structure Paired (client : Client) : Prop where
  lines : client.exchanges.map Exchange.line = Connection.commandLines client.received
  framed : ∀ x ∈ client.exchanges, Framed x.response
  responses : Lines.segments 10 (client.exchanges.flatMap Exchange.response) =
    client.exchanges.map responseLine
  complete : Lines.rest 10 (client.exchanges.flatMap Exchange.response) = []
  read : Stops client.exchanges → Lines.segments 10 (receivedBytes client.exchanges) <+:
    client.exchanges.map responseLine

/-- Framed responses come apart again where they were put together. -/
theorem segments_responses {exchanges : List Exchange}
    (h : ∀ x ∈ exchanges, Framed x.response) :
    Lines.segments 10 (exchanges.flatMap Exchange.response) = exchanges.map responseLine ∧
      Lines.rest 10 (exchanges.flatMap Exchange.response) = [] := by
  have hline : ∀ x ∈ exchanges, OneLine (responseLine x) ∧ x.response = responseLine x ++ [10] := by
    intro x hx
    rcases framed_iff.mp (h x hx) with ⟨body, hbody, hresponse⟩
    unfold responseLine
    rw [hresponse, List.dropLast_concat]
    exact ⟨hbody, rfl⟩
  have hflat : exchanges.flatMap Exchange.response =
      (exchanges.map responseLine).flatMap fun l => l ++ [10] := by
    rw [List.flatMap_map]
    exact List.flatMap_congr fun x hx => (hline x hx).2
  rw [hflat]
  apply Lines.segments_flatMap
  intro l hl
  rcases List.mem_map.mp hl with ⟨x, hx, rfl⟩
  exact (hline x hx).1

theorem paired {client : Client} (hserved : Served client)
    (hframed : ∀ x ∈ client.exchanges, Framed x.response) : Paired client := by
  rcases segments_responses hframed with ⟨hsegments, hrest⟩
  refine ⟨hserved.lines, hframed, hsegments, hrest, ?_⟩
  intro hstops
  rcases ((inOrder_iff_stops hserved.accepted).mpr hstops).bytes with ⟨lost, hdue⟩
  rw [← hsegments, ← hdue, Lines.segments_append]
  exact List.prefix_append _ _

/-- In every run from an empty directory in which no device fails and no table
is written over a live one that does not fit it: every response is one line,
and the response lines of each client, open or gone, answer its command lines
one by one. -/
theorem responses_framed {dataDir : Bytes} {cacheSize : Nat} {memtableSizeBytes : UInt64}
    {evs : List ServerEvent} {w : World}
    (hclosed : Machine.Along step AcceptsClosed
      (start (LSMEngine.start dataDir cacheSize memtableSizeBytes)) evs)
    (hquiet : ∀ ev ∈ evs, Quiet ev)
    (hunharmed : Machine.Along step Unharmed
      (start (LSMEngine.start dataDir cacheSize memtableSizeBytes)) evs)
    (hrun : Machine.run step (start (LSMEngine.start dataDir cacheSize memtableSizeBytes)) evs =
      some w) {p : Int × Client} (hp : p ∈ w.clients ++ w.past) : Paired p.2 := by
  have hisolated := (isolated_start _).run hclosed hrun
  have hsteps : Machine.Along step (fun w ev => Quiet ev ∧ Unharmed w ev)
      (start (LSMEngine.start dataDir cacheSize memtableSizeBytes)) evs :=
    (Machine.along_of_forall hquiet fun _ _ h => h).and hunharmed
  have hlined : Lined w := Machine.run_invariant
    (fun _ _ _ h hstep => h.step hstep.1 hstep.2) (lined_start _ _ _) hsteps hrun
  have hserved : Served p.2 := by
    rcases List.mem_append.mp hp with hp | hp
    · exact hisolated.served p hp
    · exact hisolated.past p hp
  exact paired hserved fun x hx => hlined.framed x ⟨p, hp, hx⟩

/-- A value goes through a flush and a restart. -/
def echoed : List ServerEvent :=
  [.round (some 4) [], .round none [Ready.calm 4 (some (ascii "SET k a b c\r\n\nget k\n"))],
    .compact (Env.calm 2), .restart 10 5 (Env.calm 3), .round (some 4) [],
    .round none [⟨4, some (ascii "GET k\nfoo\n"), fun _ => ExecEnv.calm 4, fun _ => 4096⟩]]

theorem responses_framed_echoed :
    ∃ w, Machine.run step (start (LSMEngine.start (ascii "./data") 10 5)) echoed = some w ∧
      w.engine.sstables.length = 1 ∧ ∀ p ∈ w.clients ++ w.past, Paired p.2 := by
  have hran : (Machine.run step (start (LSMEngine.start (ascii "./data") 10 5)) echoed).map
      (fun w => w.engine.sstables.length) = some 1 := by decide +kernel
  rcases Option.map_eq_some_iff.mp hran with ⟨w, hrun, htables⟩
  have hquiet : ∀ ev ∈ echoed, Quiet ev := by
    simp [echoed, Quiet, Ready.calm, ExecEnv.quiet_calm, Env.quiet_calm]
  have hfresh : Machine.Along step FreshNames
      (start (LSMEngine.start (ascii "./data") 10 5)) echoed := by decide +kernel
  exact ⟨w, hrun, htables, fun p hp => responses_framed (by decide +kernel) hquiet
    (hfresh.mono fun _ _ => unharmed_of_freshNames) hrun hp⟩

/-! ## A misread value -/

end World

/-- What reads and flushes depend on. -/
structure Layers where
  dataDir : Bytes
  tables : Files
  cache : LRUCache Bytes Bytes
  memtable : MemTable
  sstables : List SSTable
deriving DecidableEq

namespace LSMEngine

def layers (e : LSMEngine) : Layers :=
  ⟨e.dataDir, e.disk.tables, e.cache, e.memtable, e.sstables⟩

section Writes

variable {e : LSMEngine} {dataDir key value : Bytes} {tables : Files}
  {cache cache' : LRUCache Bytes Bytes} {memtable : MemTable} {sstables : List SSTable}
  (h : e.layers = ⟨dataDir, tables, cache, memtable, sstables⟩)
  (hput : cache.put key value = some cache')
include h hput

theorem set_below (hfull : (memtable.set key value).isFull = false) (ms : Nat) :
    ∃ e', e.set key value (Env.calm ms) = some e' ∧
      e'.layers = ⟨dataDir, tables, cache', memtable.set key value, sstables⟩ := by
  simp only [layers, Layers.mk.injEq] at h
  rcases h with ⟨rfl, rfl, rfl, rfl, rfl⟩
  unfold LSMEngine.set setSteps flushIfFull
  simp only [hput, bind, Option.bind, pure, hfull, Bool.false_eq_true, if_false]
  exact ⟨_, rfl, rfl⟩

theorem set_full (hfull : (memtable.set key value).isFull = true)
    (hfits : ∀ entry ∈ (memtable.set key value).data, EntryFits entry) (ms : Nat) :
    ∃ e', e.set key value (Env.calm ms) = some e' ∧
      e'.layers = ⟨dataDir,
        Assoc.put (sstablePath dataDir ms) (encodeEntries (memtable.set key value).data) tables,
        cache', (memtable.set key value).clear,
        sstables ++ [describe (sstablePath dataDir ms)
          (entryReader.located (encodeEntries (memtable.set key value).data) 0)]⟩ := by
  simp only [layers, Layers.mk.injEq] at h
  rcases h with ⟨rfl, rfl, rfl, rfl, rfl⟩
  have hne := MemTable.data_set_ne_nil e.memtable key value
  unfold LSMEngine.set setSteps flushIfFull Env.calm
  simp only [hput, bind, Option.bind, pure, hfull, if_true]
  rw [flushMemtable_files hne, flushedTo_sound _ _ hfits, putFile_sound]
  exact ⟨_, rfl, rfl⟩

end Writes

/-- The filter of the newer of two tables saves it, and the older one answers. -/
theorem searchTables_older {older newer : SSTable} {files : Files} {key value : Bytes}
    (hnewer : newer.bloomMightContain key = false) (holder : older.bloomMightContain key = true)
    (hget : older.get files key = some value) (saved : UInt64) :
    (searchTables files key [older, newer].reverse saved).1 = some value := by
  simp [searchTables, hnewer, holder, hget]

theorem get_of_slowPath {e : LSMEngine} {key value : Bytes} {cache cache' : LRUCache Bytes Bytes}
    (hmiss : e.cache.get key = some (none, cache)) (hslow : e.slowPath key = some value)
    (hmark : value ≠ TOMBSTONE) (hplain : parseExpiry value = none)
    (hput : cache.put key value = some cache') (now : Nat) :
    ∃ e', e.get key now = some (some value, e') := by
  rcases get_of_miss hmiss now with ⟨saved, hget⟩
  rw [hget, hslow]
  unfold serve checkTtl
  simp only [if_neg hmark, hput, hplain, bind, Option.bind]
  exact ⟨_, rfl⟩

end LSMEngine

namespace World

/-- Keys of one byte, in descending order. -/
def filling : List Bytes :=
  (ascii "SET " ++ [200, 200] ++ ascii " v") ::
    (List.range 99).map fun k => ascii "SET " ++ [UInt8.ofNat (132 - k)] ++ ascii " v"

/-- The first table: its index has the last key at offset 1000. -/
def firstTable : List Entry :=
  ((List.range 100).map fun k => ([UInt8.ofNat (33 + k)], ascii "v")) ++ [([200, 200], ascii "v")]

/-- A value that ends like the beginning of an entry of that key, at offset 1000
of the file it stands first in. -/
def crafted : Bytes := List.replicate 991 120 ++ [2, 0, 0, 0, 200, 200, 14, 0, 0, 0]

/-- The table written over it. -/
def secondTable : List Entry := [(ascii "q", crafted), (ascii "s", ascii "0123456789")]

/-- What stands there for a value: the key and the beginning of the value `s`,
with the length between them. -/
def misread : Bytes := [1, 0, 0, 0, 115, 10, 0, 0, 0, 48, 49, 50, 51, 52]

/-- Both tables are written to this file. -/
def sharedPath : Bytes := sstablePath (ascii "./data") 1

def tableOf (entries : List Entry) : SSTable :=
  describe sharedPath (entryReader.located (encodeEntries entries) 0)

theorem mightContain_firstTable : (tableOf firstTable).bloomMightContain [200, 200] = true := by
  apply mightContain_describe
  rw [all_encodeEntries (by decide +kernel)]
  decide +kernel

/-- The first table finds its last key in the file of the second. -/
theorem get_firstTable :
    (tableOf firstTable).get [(sharedPath, encodeEntries secondTable)] [200, 200] =
      some misread := by
  have hempty : (tableOf firstTable).sparseIndex.isEmpty = false := by decide +kernel
  have hstart : startOffset (tableOf firstTable).sparseIndex [200, 200] = 1000 := by
    decide +kernel
  have hscan : scanLoop ((encodeEntries secondTable).length + 1)
      ((IFStream.openFile (encodeEntries secondTable)).seekg 1000) [200, 200] = some misread := by
    decide +kernel
  have hget := get_eq_scan mightContain_firstTable hempty
    (Assoc.get_cons_self sharedPath (encodeEntries secondTable) [])
  rw [hstart, hscan] at hget
  exact hget

/-- The engine after the second flush, seen through what a read depends on. -/
theorem get_misread {e : LSMEngine} {cache cache' : LRUCache Bytes Bytes} {memtable : MemTable}
    {dataDir : Bytes}
    (h : e.layers = ⟨dataDir, [(sharedPath, encodeEntries secondTable)], cache, memtable,
      [tableOf firstTable, tableOf secondTable]⟩)
    (hempty : memtable.data = []) (hmiss : cache.get [200, 200] = some (none, cache))
    (hput : cache.put [200, 200] misread = some cache') (now : Nat) :
    ∃ e', e.get [200, 200] now = some (some misread, e') := by
  simp only [LSMEngine.layers, Layers.mk.injEq] at h
  rcases h with ⟨-, hfiles, rfl, rfl, hsstables⟩
  have hskipped : (tableOf secondTable).bloomMightContain [200, 200] = false := by decide +kernel
  have hnone : e.memtable.get [200, 200] = none := by
    unfold MemTable.get
    rw [hempty]
    rfl
  have hslow : e.slowPath [200, 200] = some misread := by
    unfold LSMEngine.slowPath
    rw [hnone, Option.none_or, hfiles, hsstables]
    exact LSMEngine.searchTables_older hskipped mightContain_firstTable get_firstTable _
  exact LSMEngine.get_of_slowPath hmiss hslow (by decide) (by decide) hput now

theorem commandLoop_append {envs : Nat → ExecEnv} {room : Nat → Nat} {i : Nat}
    {lines lines' : List Bytes} {e e₁ e₂ : LSMEngine} {exchanges exchanges' : List Exchange}
    (h : commandLoop envs room i lines e = some (e₁, exchanges))
    (h' : commandLoop envs room (i + lines.length) lines' e₁ = some (e₂, exchanges')) :
    commandLoop envs room i (lines ++ lines') e = some (e₂, exchanges ++ exchanges') := by
  induction lines generalizing i e exchanges with
  | nil =>
      simp only [commandLoop, Option.some.injEq, Prod.mk.injEq] at h
      rw [h.1, ← h.2]
      exact h'
  | cons line lines ih =>
      rcases commandLoop_cons.mp h with ⟨response, e₀, later, hexecute, hloop, rfl⟩
      have hlen : i + (line :: lines).length = i + 1 + lines.length := by
        rw [List.length_cons]
        omega
      rw [hlen] at h'
      exact commandLoop_cons.mpr ⟨response, e₀, _, hexecute, ih hloop h', rfl⟩

theorem execute_set {line key value : Bytes}
    (hparse : Parser.parse line = ⟨ascii "SET", [key, value]⟩) {e e' : LSMEngine} {ms : Nat}
    (hset : e.set key value (Env.calm ms) = some e') :
    Parser.execute (Parser.parse line) e (ExecEnv.calm ms) = .returned (ascii "OK\n") e' := by
  rw [hparse]
  show Parser.respond _ (e.set key (Parser.join [value]) (Env.calm ms)) = _
  unfold Parser.join
  rw [List.intercalate_singleton, hset]
  rfl

theorem execute_get {line key value : Bytes}
    (hparse : Parser.parse line = ⟨ascii "GET", [key]⟩) {e e' : LSMEngine} {ms : Nat}
    (hget : e.get key ms = some (some value, e')) :
    Parser.execute (Parser.parse line) e (ExecEnv.calm ms) =
      .returned (ascii "VALUE " ++ value ++ ascii "\n") e' := by
  have hcall : (e.background ((ExecEnv.calm ms).merges 0)).get key ((ExecEnv.calm ms).calls 0).now =
      some (some value, e') := hget
  rw [hparse]
  show Parser.executeGet [key] e (ExecEnv.calm ms) = _
  unfold Parser.executeGet
  simp only [hcall]

/-- The lines behind the first 100. -/
def overwriting : List Bytes :=
  [ascii "SET ! v", ascii "SET s 0123456789", ascii "SET q " ++ crafted,
    ascii "GET " ++ [200, 200]]

/-- All of it reaches the server in one chunk, in one millisecond. -/
def oneMillisecond : List ServerEvent :=
  [.round (some 4) [], .round none [Ready.calm 4
    (some ((filling ++ overwriting).flatMap fun line => line ++ [10]))]]

/-- A cache with room for one value, and the `n`-th one in it. -/
def lastPut (n : Nat) (key value : Bytes) : LRUCache Bytes Bytes :=
  ⟨1, [⟨n, key, value⟩], [(key, n)], n + 1⟩

/-- A write that does not fill the memtable, in cache and memtable. -/
def fillStep : LRUCache Bytes Bytes × MemTable → Entry →
    Option (LRUCache Bytes Bytes × MemTable)
  | (cache, memtable), (key, value) =>
    if (memtable.set key value).isFull then none
    else (cache.put key value).map fun cache => (cache, memtable.set key value)

theorem commandLoop_fill {entries : List Entry} {lines : List Bytes}
    (hparse : lines.map Parser.parse =
      entries.map fun entry => ⟨ascii "SET", [entry.1, entry.2]⟩)
    {e : LSMEngine} {dataDir : Bytes} {tables : Files} {cache cache' : LRUCache Bytes Bytes}
    {memtable memtable' : MemTable} {sstables : List SSTable}
    (h : e.layers = ⟨dataDir, tables, cache, memtable, sstables⟩)
    (hfill : entries.foldlM fillStep (cache, memtable) = some (cache', memtable')) (ms : Nat)
    (room : Nat → Nat) (i : Nat) :
    ∃ e' exchanges,
      commandLoop (fun _ => ExecEnv.calm ms) room i lines e = some (e', exchanges) ∧
        e'.layers = ⟨dataDir, tables, cache', memtable', sstables⟩ := by
  induction entries generalizing lines e cache memtable i with
  | nil =>
      have hlines : lines = [] := List.map_eq_nil_iff.mp hparse
      cases hfill
      rw [hlines]
      exact ⟨e, [], rfl, h⟩
  | cons entry entries ih =>
      rcases List.map_eq_cons_iff.mp hparse with ⟨line, later, rfl, hline, hlater⟩
      rw [List.foldlM_cons] at hfill
      rcases Option.bind_eq_some_iff.mp hfill with ⟨⟨cache₁, memtable₁⟩, hstep, hrest⟩
      simp only [fillStep] at hstep
      split_ifs at hstep with hfull
      rcases Option.map_eq_some_iff.mp hstep with ⟨_, hput, ⟨rfl, rfl⟩⟩
      rcases LSMEngine.set_below h hput (Bool.eq_false_iff.mpr hfull) ms with ⟨e₁, hset, h₁⟩
      rcases ih hlater h₁ hrest (i + 1) with ⟨e₂, exchanges, hloop, h₂⟩
      exact ⟨e₂, _, commandLoop_cons.mpr ⟨_, e₁, _, execute_set hline hset, hloop, rfl⟩, h₂⟩

/-- The lines after the first 100 flush, fill, flush to the same file, and read. -/
theorem commandLoop_overwriting :
    ∃ e exchanges, commandLoop (fun _ => ExecEnv.calm 1) (fun _ => 4096) 0
        (filling ++ overwriting) (LSMEngine.start (ascii "./data") 1 202) = some (e, exchanges) ∧
      ∃ x ∈ exchanges, x.line = ascii "GET " ++ [200, 200] ∧
        x.response = ascii "VALUE " ++ misread ++ ascii "\n" := by
  have hlines : filling.map Parser.parse =
      firstTable.tail.reverse.map fun entry => ⟨ascii "SET", [entry.1, entry.2]⟩ := by
    decide +kernel
  have hfill : firstTable.tail.reverse.foldlM fillStep (LRUCache.new 1, MemTable.new 202) =
      some (lastPut 99 [34] (ascii "v"), ⟨firstTable.tail, 202, 201⟩) := by decide +kernel
  have h₀ : (LSMEngine.start (ascii "./data") 1 202).layers =
      ⟨ascii "./data", [], LRUCache.new 1, MemTable.new 202, []⟩ := rfl
  rcases commandLoop_fill hlines h₀ hfill 1 (fun _ => 4096) 0 with ⟨e₁, exchanges, hloop, h₁⟩
  -- the 101st key fills the memtable
  have hput₁ : (lastPut 99 [34] (ascii "v")).put [33] (ascii "v") =
      some (lastPut 100 [33] (ascii "v")) := by decide
  have hmem₁ : (MemTable.mk firstTable.tail 202 201).set [33] (ascii "v") =
      ⟨firstTable, 202, 203⟩ := by decide +kernel
  rcases LSMEngine.set_full h₁ hput₁ (by rw [hmem₁]; decide) (by rw [hmem₁]; decide +kernel) 1 with
    ⟨e₂, hset₁, h₂⟩
  rw [hmem₁] at h₂
  have hput₂ : (lastPut 100 [33] (ascii "v")).put (ascii "s") (ascii "0123456789") =
      some (lastPut 101 (ascii "s") (ascii "0123456789")) := by decide
  rcases LSMEngine.set_below h₂ hput₂ (by decide) 1 with ⟨e₃, hset₂, h₃⟩
  -- the crafted value fills it again
  have hput₃ : (lastPut 101 (ascii "s") (ascii "0123456789")).put (ascii "q") crafted =
      some (lastPut 102 (ascii "q") crafted) := by decide +kernel
  have hmem₂ : ((MemTable.mk firstTable 202 203).clear.set (ascii "s") (ascii "0123456789")).set
      (ascii "q") crafted = ⟨secondTable, 202, 1013⟩ := by decide +kernel
  rcases LSMEngine.set_full h₃ hput₃ (by rw [hmem₂]; decide) (by rw [hmem₂]; decide +kernel) 1 with
    ⟨e₄, hset₃, h₄⟩
  rw [hmem₂] at h₄
  have hmiss : (lastPut 102 (ascii "q") crafted).get [200, 200] =
      some (none, lastPut 102 (ascii "q") crafted) := by decide +kernel
  have hput₄ : (lastPut 102 (ascii "q") crafted).put [200, 200] misread =
      some (lastPut 103 [200, 200] misread) := by decide +kernel
  rcases get_misread h₄ rfl hmiss hput₄ 1 with ⟨e₅, hget⟩
  have hparse₁ : Parser.parse (ascii "SET ! v") = ⟨ascii "SET", [[33], ascii "v"]⟩ := by decide
  have hparse₂ : Parser.parse (ascii "SET s 0123456789") =
      ⟨ascii "SET", [ascii "s", ascii "0123456789"]⟩ := by decide
  have hparse₃ : Parser.parse (ascii "SET q " ++ crafted) =
      ⟨ascii "SET", [ascii "q", crafted]⟩ := by decide +kernel
  have hparse₄ : Parser.parse (ascii "GET " ++ [200, 200]) = ⟨ascii "GET", [[200, 200]]⟩ := by
    decide
  refine ⟨e₅, _, commandLoop_append hloop
    (commandLoop_cons.mpr ⟨_, e₂, _, execute_set hparse₁ hset₁,
      commandLoop_cons.mpr ⟨_, e₃, _, execute_set hparse₂ hset₂,
        commandLoop_cons.mpr ⟨_, e₄, _, execute_set hparse₃ hset₃,
          commandLoop_cons.mpr ⟨_, e₅, [], execute_get hparse₄ hget, rfl, rfl⟩, rfl⟩, rfl⟩, rfl⟩),
    ⟨ascii "GET " ++ [200, 200], ascii "VALUE " ++ misread ++ ascii "\n", 21⟩, ?_, rfl, rfl⟩
  exact List.mem_append_right _ (by decide +kernel)

/-- A turn in which one client has a chunk ready. -/
theorem step_served {w : World} {r : Ready} {chunk : Bytes} {conn : Connection}
    {engine : LSMEngine} {exchanges : List Exchange} (hdata : r.data = some chunk)
    (hne : chunk ≠ []) (hconn : Assoc.get r.fd w.connections = some conn)
    (hloop : commandLoop r.envs r.room 0 (Connection.commandLines (conn.buffer ++ chunk))
      w.engine = some (engine, exchanges)) :
    ∃ w', step w (.round none [r]) = some w' ∧
      w'.clients = update r.fd (fun c => ⟨c.received ++ chunk, c.exchanges ++ exchanges⟩)
        w.clients := by
  have hhandle : ∃ w', w.handleClient r = some (true, w') ∧
      w'.clients = update r.fd (fun c => ⟨c.received ++ chunk, c.exchanges ++ exchanges⟩)
        w.clients := by
    unfold World.handleClient
    cases chunk with
    | nil => exact absurd rfl hne
    | cons b chunk =>
        simp only [hdata, hconn, Connection.appendData, Connection.extractCommands_eq, hloop, bind,
          Option.bind, pure, update_update]
        exact ⟨_, rfl, rfl⟩
  rcases hhandle with ⟨w', hhandle, hclients⟩
  refine ⟨w', ?_, hclients⟩
  unfold World.step
  simp only [World.acceptConnection, World.handleAll, hhandle, bind, Option.bind, pure, if_true]
  rfl

/-- The answer to the last command is in two lines. -/
theorem newline_inside :
    (∀ ev ∈ oneMillisecond, Quiet ev) ∧
    Machine.Along step AcceptsClosed (start (LSMEngine.start (ascii "./data") 1 202))
      oneMillisecond ∧
    ∃ w c x, Machine.run step (start (LSMEngine.start (ascii "./data") 1 202)) oneMillisecond =
        some w ∧ Assoc.get 4 w.clients = some c ∧ x ∈ c.exchanges ∧
      x.line = ascii "GET " ++ [200, 200] ∧
      x.response = ascii "VALUE " ++ misread ++ ascii "\n" ∧ ¬ Framed x.response := by
  have hlines : Connection.commandLines ([] ++ (filling ++ overwriting).flatMap
      fun line => line ++ [10]) = filling ++ overwriting := by decide +kernel
  have hne : (filling ++ overwriting).flatMap (fun line => line ++ [10]) ≠ [] := by decide +kernel
  rcases commandLoop_overwriting with ⟨e, exchanges, hloop, x, hx, hline, hresponse⟩
  have hquiet : ∀ ev ∈ oneMillisecond, Quiet ev := by
    simp [oneMillisecond, Quiet, Ready.calm, ExecEnv.quiet_calm]
  have hclosed : Machine.Along step AcceptsClosed
      (start (LSMEngine.start (ascii "./data") 1 202)) oneMillisecond :=
    fun _ _ => ⟨rfl, fun _ _ => ⟨trivial, trivial⟩⟩
  -- the client is accepted, and then its chunk is handled
  let accepted : World :=
    ⟨LSMEngine.start (ascii "./data") 1 202, [(4, Connection.new 4)], [(4, Client.new)], []⟩
  have haccepted : step (start (LSMEngine.start (ascii "./data") 1 202)) (.round (some 4) []) =
      some accepted := rfl
  rw [← hlines] at hloop
  rcases step_served (w := accepted) (r := Ready.calm 4 _) rfl hne rfl hloop with
    ⟨w, hstep, hclients⟩
  have hrun : Machine.run step (start (LSMEngine.start (ascii "./data") 1 202)) oneMillisecond =
      some w := Machine.run_cons.mpr ⟨accepted, haccepted, Machine.run_cons.mpr ⟨w, hstep, rfl⟩⟩
  have hclient : Assoc.get 4 w.clients =
      some ⟨(filling ++ overwriting).flatMap fun line => line ++ [10], exchanges⟩ := by
    rw [hclients]
    rfl
  refine ⟨hquiet, hclosed, w, _, x, hrun, hclient, hx, hline, hresponse, ?_⟩
  rw [hresponse]
  decide

end World

end VaultDB
