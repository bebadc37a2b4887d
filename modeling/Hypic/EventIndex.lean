import Hypic.HashTreeShape
import Hypic.Runs

/-! `KvEventIndex`: workers are attached and detached while the pump applies their events to the tree. Every critical section is
    a step of its own, and the steps of the pump, of the subscribers and of the calls come in any order; the calls for one URL
    follow one another. -/

namespace Hypic.EventIndex
open HashTree KvEvents List Dict
universe u

structure KvWorkerId (υ : Type u) where
  url : υ
  dpRank : Nat
deriving DecidableEq

inductive WorkerEvent (υ : Type u) where
  | publisherReset (worker : KvWorkerId υ)
  | batch (worker : KvWorkerId υ) (seq : Int) (events : List KvEvent)

variable {υ : Type u}

def WorkerEvent.worker : WorkerEvent υ → KvWorkerId υ
  | .publisherReset worker => worker
  | .batch worker _ _ => worker

/-- The number of a batch. After the event it is the worker's cursor, which a reset clears. -/
def WorkerEvent.seq? : WorkerEvent υ → Option Int
  | .publisherReset _ => none
  | .batch _ seq _ => some seq

/-- Where `pump_loop` is: it waits, has an event, has found the event's worker live, or applies the rest of a batch. -/
inductive Pump (υ : Type u) where
  | idle
  | received (event : WorkerEvent υ)
  | admitted (event : WorkerEvent υ)
  | applying (worker : KvWorkerId υ) (seq : Int) (rest : List KvEvent)

/-- How far the calls for a URL have come. `add_worker` marks the ranks live, enters them in `workers` and subscribes, after which
    they are attached. `remove_worker` takes the entry, unmarks the ranks, joins the subscribers and clears rank by rank, first the
    tree and then the cursor; after that the URL has no phase. -/
inductive Phase where
  | marked (dpRanks : List Nat)
  | entered (dpRanks : List Nat)
  | attached (dpRanks : List Nat)
  | taken (dpRanks : List Nat)
  | unmarked (dpRanks : List Nat)
  | clearing (dpRanks : List Nat)
  | cleared (dpRank : Nat) (dpRanks : List Nat)
deriving DecidableEq

/-- The index with the events on their way. `sent` is the number of a publisher's last batch; `published` and `applied` list the
    numbers of the batches since the worker was attached. -/
structure Index (υ : Type u) [DecidableEq υ] where
  tree : TreeState (KvWorkerId υ)
  cursors : Dict (KvWorkerId υ) Int
  liveWorkers : List (KvWorkerId υ)
  phases : Dict υ Phase
  subscribers : List (KvWorkerId υ)
  channel : List (WorkerEvent υ)
  pump : Pump υ
  sent : KvWorkerId υ → Option Int
  published : KvWorkerId υ → List Int
  applied : KvWorkerId υ → List Int

variable [DecidableEq υ]

def start : Index υ := ⟨.new,.empty,[],.empty,[],[],.idle,fun _ => none,fun _ => [],fun _ => []⟩

inductive Action (υ : Type u) where
  | addWorker (url : υ) (dpRanks : List Nat)
  | removeWorker (url : υ)
  | proceed (url : υ)
  | publish (event : WorkerEvent υ)
  | pump

namespace Index

def ids (url : υ) (dpRanks : List Nat) : List (KvWorkerId υ) := dpRanks.map (⟨url,·⟩)

/-- The first critical section of `add_worker`, which knows the ranks to subscribe. Their publishers are new. -/
def addWorker (url : υ) (dpRanks : List Nat) (index : Index υ) : Index υ :=
  { index with
    liveWorkers := ids url dpRanks ++ index.liveWorkers
    phases := index.phases.set url (.marked dpRanks)
    sent := fun worker => if worker.url = url then none else index.sent worker
    published := fun worker => if worker.url = url then [] else index.published worker
    applied := fun worker => if worker.url = url then [] else index.applied worker }

/-- The next critical section of a call that is going on. -/
def proceed (url : υ) (index : Index υ) : Phase → Option (Index υ)
  | .marked dpRanks => some { index with phases := index.phases.set url (.entered dpRanks) }
  | .entered dpRanks =>
    some { index with subscribers := ids url dpRanks ++ index.subscribers, phases := index.phases.set url (.attached dpRanks) }
  | .attached _ => none
  | .taken dpRanks =>
    some { index with
      liveWorkers := index.liveWorkers.filter (· ∉ ids url dpRanks)
      phases := index.phases.set url (.unmarked dpRanks) }
  | .unmarked dpRanks =>
    some { index with subscribers := index.subscribers.filter (·.url ≠ url), phases := index.phases.set url (.clearing dpRanks) }
  | .clearing [] => some { index with phases := index.phases.erase url }
  | .clearing (dpRank::rest) =>
    some { index with tree := index.tree.clearWorker ⟨url,dpRank⟩, phases := index.phases.set url (.cleared dpRank rest) }
  | .cleared dpRank rest =>
    some { index with cursors := index.cursors.erase ⟨url,dpRank⟩, phases := index.phases.set url (.clearing rest) }

/-- A subscriber queues an event; a publisher numbers its batches upwards, and anew after a reset. -/
def publish (index : Index υ) (event : WorkerEvent υ) : Option (Index υ) :=
  if event.worker ∈ index.subscribers ∧ ∀ seq ∈ event.seq?, ∀ last ∈ index.sent event.worker, last < seq then
    some { index with
      channel := index.channel ++ [event]
      sent := Function.update index.sent event.worker event.seq?
      published := Function.update index.published event.worker (index.published event.worker ++ event.seq?.toList) }
  else none

/-- The pump's next critical section. -/
def pumpStep (index : Index υ) : Option (Index υ) :=
  match index.pump with
  | .idle =>
    match index.channel with
    | [] => none
    | event::rest => some { index with pump := .received event, channel := rest }
  | .received event => some { index with pump := if event.worker ∈ index.liveWorkers then .admitted event else .idle }
  | .admitted (.publisherReset worker) => some { index with pump := .idle, cursors := index.cursors.erase worker }
  | .admitted (.batch worker seq events) =>
    some { index with pump := if (index.cursors.get? worker).any (seq ≤ ·) then .idle else .applying worker seq events }
  | .applying worker seq (event::rest) =>
    some { index with tree := index.tree.apply worker event, pump := .applying worker seq rest }
  | .applying worker seq [] =>
    some { index with
      cursors := index.cursors.set worker seq
      pump := .idle
      applied := Function.update index.applied worker (index.applied worker ++ [seq]) }
end Index

/-- A call starts when none for the URL is going on; without an entry `remove_worker` returns. -/
def step (index : Index υ) : Action υ → Option (Index υ)
  | .addWorker url dpRanks =>
    match index.phases.get? url with
    | none | some (.attached _) => some (index.addWorker url dpRanks)
    | _ => none
  | .removeWorker url =>
    match index.phases.get? url with
    | none => some index
    | some (.attached dpRanks) => some { index with phases := index.phases.set url (.taken dpRanks) }
    | _ => none
  | .proceed url => (index.phases.get? url).bind (index.proceed url)
  | .publish event => index.publish event
  | .pump => index.pumpStep

/-- The event the pump has, and the one it has admitted. -/
def Pump.event : Pump υ → List (WorkerEvent υ)
  | .idle => []
  | .received event => [event]
  | .admitted event => [event]
  | .applying worker seq rest => [.batch worker seq rest]

def Pump.passed : Pump υ → List (WorkerEvent υ)
  | .received _ => []
  | pump => pump.event

/-- The worker's events that the pump has not done with, and the numbers of the batches among events. -/
def Index.pending (index : Index υ) (worker : KvWorkerId υ) : List (WorkerEvent υ) :=
  (index.pump.event ++ index.channel).filter (·.worker = worker)

def seqs (events : List (WorkerEvent υ)) : List Int := events.filterMap WorkerEvent.seq?

/-- Whether the next step of the URL's call takes its ranks out of `live_workers`. -/
def Index.unmarks (index : Index υ) (url : υ) : Bool :=
  match index.phases.get? url with
  | some (.taken _) => true
  | _ => false

/-- A URL is attached once at a time and with no event of its past around, and it is not unmarked while the pump applies an
    event of it. -/
def Orderly (index : Index υ) : Action υ → Prop
  | .addWorker url _ => index.phases.get? url = none ∧ ∀ event ∈ index.pump.event ++ index.channel, event.worker.url ≠ url
  | .proceed url => index.unmarks url → ∀ event ∈ index.pump.passed, event.worker.url ≠ url
  | _ => True

instance (index : Index υ) : (action : Action υ) → Decidable (Orderly index action)
  | .addWorker _ _ => inferInstanceAs (Decidable (_ ∧ _))
  | .proceed _ => inferInstanceAs (Decidable (_ → _))
  | .removeWorker _ | .publish _ | .pump => isTrue trivial

/-- The events are all accepted from a cursor on, which then stands at `last`. -/
inductive Feeds : Option Int → List (WorkerEvent υ) → Option Int → Prop
  | nil (cursor : Option Int) : Feeds cursor [] cursor
  | cons {cursor last : Option Int} {event : WorkerEvent υ} {rest : List (WorkerEvent υ)}
      (above : ∀ seq ∈ event.seq?, ∀ number ∈ cursor, number < seq) (later : Feeds event.seq? rest last) : Feeds cursor (event::rest) last

omit [DecidableEq υ] in
theorem Feeds.append {cursor middle last : Option Int} {left right : List (WorkerEvent υ)} (first : Feeds cursor left middle)
    (second : Feeds middle right last) : Feeds cursor (left ++ right) last := by
  induction first with
  | nil => exact second
  | cons above _ ih => exact .cons above (ih second)

/-- The ranks of a phase that are live, in the tree, or have a cursor. -/
def Phase.live : Phase → List Nat
  | .marked dpRanks | .entered dpRanks | .attached dpRanks | .taken dpRanks => dpRanks
  | _ => []

def Phase.inTree : Phase → List Nat
  | .unmarked dpRanks | .clearing dpRanks | .cleared _ dpRanks => dpRanks
  | phase => phase.live

def Phase.inCursors : Phase → List Nat
  | .cleared dpRank dpRanks => dpRank::dpRanks
  | phase => phase.inTree

def Index.ranks (part : Phase → List Nat) (index : Index υ) (url : υ) : List Nat := (index.phases.get? url).elim [] part

/-- What orderly steps keep. -/
structure Sound (index : Index υ) : Prop where
  formed : Formed index.tree
  tended : Tended index.tree []
  live : ∀ worker, worker ∈ index.liveWorkers ↔ worker.dpRank ∈ index.ranks Phase.live worker.url
  tree : ∀ worker, worker.dpRank ∉ index.ranks Phase.inTree worker.url → Gone index.tree worker
  cursor : ∀ worker, worker.dpRank ∉ index.ranks Phase.inCursors worker.url → index.cursors.get? worker = none
  passed : ∀ event ∈ index.pump.passed, event.worker ∈ index.liveWorkers
  flow : ∀ worker ∈ index.liveWorkers, index.published worker = index.applied worker ++ seqs (index.pending worker) ∧
    Feeds (index.cursors.get? worker) (index.pending worker) (index.sent worker)

variable {index next final : Index υ} {url : υ}

theorem sound_start : Sound (start : Index υ) := by
  refine ⟨formed_new,tended_new,?_,?_,?_,nofun,nofun⟩
  · simp [start,Index.ranks]
  · intro worker _ id node found
    simp only [start,TreeState.new,get?_set,get?_empty] at found
    grind
  · simp [start]

theorem ranks_set {phase : Phase} (moved : next.phases = index.phases.set url phase) (part : Phase → List Nat) (other : υ) :
    next.ranks part other = if other = url then part phase else index.ranks part other := by
  simp only [Index.ranks,moved,get?_set]
  by_cases same : other = url
  · simp [same]
  · simp [same]

theorem ranks_live {rank : Nat} (live : rank ∈ index.ranks Phase.live url) :
    rank ∈ index.ranks Phase.inTree url ∧ rank ∈ index.ranks Phase.inCursors url := by
  simp only [Index.ranks] at live ⊢
  cases found : index.phases.get? url with
  | none => simp [found] at live
  | some phase => cases phase <;> simp_all [Phase.live,Phase.inTree,Phase.inCursors]

theorem Sound.move (sound : Sound index) {phases : Dict υ Phase} (subscribers : List (KvWorkerId υ))
    (same : ∀ part, part = Phase.live ∨ part = Phase.inTree ∨ part = Phase.inCursors → ∀ other,
      ((phases.get? other).elim [] part) = index.ranks part other) : Sound { index with phases, subscribers } := by
  refine ⟨sound.formed,sound.tended,fun worker => ?_,fun worker absent => ?_,fun worker absent => ?_,sound.passed,sound.flow⟩
  · rw [sound.live,← same _ (.inl rfl)]
    rfl
  · exact sound.tree worker (same _ (.inr (.inl rfl)) _ ▸ absent)
  · exact sound.cursor worker (same _ (.inr (.inr rfl)) _ ▸ absent)

theorem clearWorker_gone {tree : TreeState (KvWorkerId υ)} (formed : Formed tree) (tended : Tended tree []) (worker : KvWorkerId υ)
    {other : KvWorkerId υ} (gone : other ≠ worker → Gone tree other) : Gone (tree.clearWorker worker) other := by
  obtain ⟨-,-,others,cleared⟩ := formed.clearWorker tended worker
  by_cases same : other = worker
  · exact same ▸ cleared
  · intro id node stored inside
    obtain ⟨old,stored,-,-,inside⟩ := (others other same id _ _).mp ⟨node,stored,rfl,rfl,inside⟩
    exact gone same id old stored inside

theorem apply_spares {tree : TreeState (KvWorkerId υ)} (formed : Formed tree) (tended : Tended tree []) (worker : KvWorkerId υ)
    (event : KvEvent) : Formed (tree.apply worker event) ∧ Tended (tree.apply worker event) [] ∧
      ∀ other ≠ worker, Gone tree other → Gone (tree.apply worker event) other := by
  cases event with
  | blockStored blockHashes parentBlockHash tokenIds blockSize => exact formed.insert tended worker parentBlockHash blockHashes
  | blockRemoved blockHashes =>
    obtain ⟨formed',tended',spares⟩ := formed.remove tended worker blockHashes
    exact ⟨formed',tended',fun other _ => spares other⟩
  | allBlocksCleared =>
    obtain ⟨formed',tended',-⟩ := formed.clearWorker tended worker
    exact ⟨formed',tended',fun other _ gone => clearWorker_gone formed tended worker fun _ => gone⟩

theorem addWorker_sound (sound : Sound index) {dpRanks : List Nat} (orderly : Orderly index (.addWorker url dpRanks)) :
    Sound (index.addWorker url dpRanks) := by
  obtain ⟨formed,tended,live,tree,cursor,passed,flow⟩ := sound
  obtain ⟨detached,quiet⟩ := orderly
  have nothing (part : Phase → List Nat) : index.ranks part url = [] := by simp [Index.ranks,detached]
  have ranks := @ranks_set _ _ index (index.addWorker url dpRanks) url (.marked dpRanks) rfl
  have added (worker : KvWorkerId υ) : worker ∈ (index.addWorker url dpRanks).liveWorkers ↔
      worker.url = url ∧ worker.dpRank ∈ dpRanks ∨ worker ∈ index.liveWorkers := by
    obtain ⟨name,rank⟩ := worker
    simp only [Index.addWorker,Index.ids,mem_append,mem_map,KvWorkerId.mk.injEq]
    grind
  refine ⟨formed,tended,?_,?_,?_,fun event member => (added _).mpr (.inr (passed event member)),?_⟩
  · intro worker
    have := live worker
    grind [Phase.live]
  · exact fun worker absent => tree worker (by grind)
  · exact fun worker absent => cursor worker (by grind)
  · intro worker member
    by_cases same : worker.url = url
    · have pending : (index.addWorker url dpRanks).pending worker = [] := by
        refine filter_eq_nil_iff.mpr fun event member => ?_
        have := quiet event member
        grind
      have unset := cursor worker (by rw [same,nothing]; exact not_mem_nil)
      rw [pending]
      simp only [Index.addWorker,same,if_true,unset]
      exact ⟨rfl,.nil _⟩
    · simp only [Index.addWorker,same,if_false]
      exact flow worker (by grind)

theorem proceed_sound (sound : Sound index) {phase : Phase} (called : index.phases.get? url = some phase)
    (orderly : Orderly index (.proceed url)) (stepped : index.proceed url phase = some next) : Sound next := by
  have before (part : Phase → List Nat) : index.ranks part url = part phase := by simp [Index.ranks,called]
  have moved {phase' : Phase} (subscribers : List (KvWorkerId υ)) (same : phase'.live = phase.live) (inTree : phase'.inTree = phase.inTree)
      (inCursors : phase'.inCursors = phase.inCursors) : Sound { index with phases := index.phases.set url phase', subscribers } := by
    refine sound.move subscribers fun part known other => ?_
    have := before part
    rcases known with rfl|rfl|rfl <;> grind [get?_set,Index.ranks]
  cases phase with
  | marked dpRanks =>
    cases stepped
    exact moved _ rfl rfl rfl
  | entered dpRanks =>
    cases stepped
    exact moved _ rfl rfl rfl
  | attached dpRanks => cases stepped
  | unmarked dpRanks =>
    cases stepped
    exact moved _ rfl rfl rfl
  | taken dpRanks =>
    obtain ⟨formed,tended,live,tree,cursor,passed,flow⟩ := sound
    cases stepped
    have quiet := orderly (by simp [Index.unmarks,called])
    have ranks (part : Phase → List Nat) (other : υ) := @ranks_set _ _ index { index with
      liveWorkers := index.liveWorkers.filter (· ∉ Index.ids url dpRanks)
      phases := index.phases.set url (.unmarked dpRanks) } url (.unmarked dpRanks) rfl part other
    have kept (worker : KvWorkerId υ) : worker ∈ index.liveWorkers.filter (· ∉ Index.ids url dpRanks) ↔
        worker ∈ index.liveWorkers ∧ worker.url ≠ url := by
      have := live worker
      obtain ⟨name,rank⟩ := worker
      simp only [Index.ids,mem_filter,mem_map,KvWorkerId.mk.injEq,decide_eq_true_eq]
      grind [Phase.live]
    refine ⟨formed,tended,?_,?_,?_,fun event member => (kept _).mpr ⟨passed event member,quiet event member⟩,
      fun worker member => flow worker ((kept worker).mp member).1⟩
    · intro worker
      have := live worker
      grind [Phase.live]
    · exact fun worker absent => tree worker (by grind [Phase.inTree,Phase.live])
    · exact fun worker absent => cursor worker (by grind [Phase.inTree,Phase.inCursors,Phase.live])
  | clearing dpRanks =>
    cases dpRanks with
    | nil =>
      cases stepped
      refine sound.move _ fun part known other => ?_
      have := before part
      rcases known with rfl|rfl|rfl <;> grind [get?_erase,Index.ranks,Phase.live,Phase.inTree,Phase.inCursors]
    | cons dpRank rest =>
      obtain ⟨formed,tended,live,tree,cursor,passed,flow⟩ := sound
      cases stepped
      obtain ⟨formed',tended',-⟩ := formed.clearWorker tended ⟨url,dpRank⟩
      have ranks (part : Phase → List Nat) (other : υ) := @ranks_set _ _ index { index with
        tree := index.tree.clearWorker ⟨url,dpRank⟩
        phases := index.phases.set url (.cleared dpRank rest) } url _ rfl part other
      refine ⟨formed',tended',?_,?_,?_,passed,flow⟩
      · intro worker
        have := live worker
        grind [Phase.live]
      · refine fun worker absent => clearWorker_gone formed tended _ fun apart => tree worker ?_
        obtain ⟨name,rank⟩ := worker
        grind [Phase.inTree,Phase.live]
      · exact fun worker absent => cursor worker (by grind [Phase.inTree,Phase.inCursors,Phase.live])
  | cleared dpRank rest =>
    obtain ⟨formed,tended,live,tree,cursor,passed,flow⟩ := sound
    cases stepped
    have ranks (part : Phase → List Nat) (other : υ) := @ranks_set _ _ index { index with
      cursors := index.cursors.erase ⟨url,dpRank⟩
      phases := index.phases.set url (.clearing rest) } url _ rfl part other
    refine ⟨formed,tended,?_,?_,?_,passed,fun worker member => ?_⟩
    · intro worker
      have := live worker
      grind [Phase.live]
    · exact fun worker absent => tree worker (by grind [Phase.inTree,Phase.live])
    · intro worker absent
      have := cursor worker
      obtain ⟨name,rank⟩ := worker
      grind [get?_erase,Phase.inTree,Phase.inCursors,Phase.live]
    · have other : worker ≠ ⟨url,dpRank⟩ := by
        have := (live worker).mp member
        grind [Phase.live]
      simp only [get?_erase,other,if_false]
      exact flow worker member

theorem pending_queued (index : Index υ) (event : WorkerEvent υ) (sent : KvWorkerId υ → Option Int) (published : KvWorkerId υ → List Int)
    (worker : KvWorkerId υ) : { index with channel := index.channel ++ [event], sent, published }.pending worker =
      index.pending worker ++ if event.worker = worker then [event] else [] := by
  simp only [Index.pending]
  rw [← append_assoc,filter_append]
  split <;> simp [*]

theorem publish_sound (sound : Sound index) {event : WorkerEvent υ} (stepped : index.publish event = some next) : Sound next := by
  have ⟨formed,tended,live,tree,cursor,passed,flow⟩ := sound
  obtain ⟨⟨-,above⟩,stepped⟩ := ite_none_right_eq_some.mp stepped
  cases stepped
  refine ⟨formed,tended,live,tree,cursor,passed,fun worker member => ?_⟩
  obtain ⟨complete,feeds⟩ := flow worker member
  rw [pending_queued]
  by_cases same : event.worker = worker
  · subst same
    simp only [if_true,Function.update_self]
    refine ⟨?_,feeds.append (.cons above (.nil _))⟩
    cases event <;> simp [complete,seqs,WorkerEvent.seq?]
  · simp only [same,if_false,append_nil,update_of_ne (Ne.symm same)]
    exact ⟨complete,feeds⟩

theorem pending_held {event : WorkerEvent υ} (held : index.pump.event = [event]) (worker : KvWorkerId υ) : index.pending worker =
    if event.worker = worker then event::index.channel.filter (·.worker = worker) else index.channel.filter (·.worker = worker) := by
  simp [Index.pending,held,filter_cons]

/-- A step of the pump that leaves the tree and the cursors, and no live worker's events but as they were. -/
theorem Sound.advance (sound : Sound index) {pump : Pump υ} {channel : List (WorkerEvent υ)}
    (passed : ∀ event ∈ pump.passed, event.worker ∈ index.liveWorkers)
    (same : ∀ worker ∈ index.liveWorkers, { index with pump, channel }.pending worker = index.pending worker) :
    Sound { index with pump, channel } := by
  refine ⟨sound.formed,sound.tended,sound.live,sound.tree,sound.cursor,passed,fun worker member => ?_⟩
  rw [same worker member]
  exact sound.flow worker member

theorem Sound.finish (sound : Sound index) {event : WorkerEvent υ} (held : index.pump.event = [event])
    (known : event.worker ∈ index.liveWorkers) {cursors : Dict (KvWorkerId υ) Int} {applied : KvWorkerId υ → List Int}
    (moved : ∀ worker, cursors.get? worker = if worker = event.worker then event.seq? else index.cursors.get? worker)
    (extended : ∀ worker, applied worker = index.applied worker ++ if worker = event.worker then event.seq?.toList else []) :
    Sound { index with cursors, applied, pump := .idle } := by
  have ⟨formed,tended,live,tree,cursor,passed,flow⟩ := sound
  refine ⟨formed,tended,live,tree,fun worker absent => ?_,nofun,fun worker member => ?_⟩
  · have apart : worker ≠ event.worker := by
      rintro rfl
      exact absent (ranks_live ((live _).mp known)).2
    rw [moved,if_neg apart]
    exact cursor worker absent
  · obtain ⟨complete,feeds⟩ := flow worker member
    rw [pending_held held] at complete feeds
    simp only [moved,extended]
    by_cases same : worker = event.worker
    · subst same
      rw [if_pos rfl] at complete feeds
      simp only [if_true]
      cases feeds with
      | cons above later =>
        refine ⟨?_,later⟩
        rw [complete,append_assoc]
        cases event <;> rfl
    · rw [if_neg (Ne.symm same)] at complete feeds
      simp only [same,if_false,append_nil]
      exact ⟨complete,feeds⟩

theorem pump_sound (sound : Sound index) (stepped : index.pumpStep = some next) : Sound next := by
  have ⟨formed,tended,live,tree,cursor,passed,flow⟩ := sound
  simp only [Index.pumpStep] at stepped
  cases at' : index.pump with
  | idle =>
    cases queued : index.channel with
    | nil =>
      rw [at',queued] at stepped
      cases stepped
    | cons event rest =>
      rw [at',queued] at stepped
      cases stepped
      refine sound.advance nofun fun worker _ => ?_
      simp [Index.pending,at',queued,Pump.event]
  | received event =>
    rw [at'] at stepped
    cases stepped
    by_cases known : event.worker ∈ index.liveWorkers
    · rw [if_pos known]
      refine sound.advance (fun other member => mem_singleton.mp member ▸ known) fun worker _ => ?_
      simp [Index.pending,at',Pump.event]
    · rw [if_neg known]
      refine sound.advance nofun fun worker member => ?_
      have other : event.worker ≠ worker := fun same => known (same ▸ member)
      simp [Index.pending,at',Pump.event,other]
  | admitted event =>
    have known : event.worker ∈ index.liveWorkers := passed event (by simp [at',Pump.passed,Pump.event])
    have held : index.pump.event = [event] := by rw [at',Pump.event]
    rw [at'] at stepped
    cases event with
    | publisherReset worker =>
      cases stepped
      refine sound.finish held known (fun other => get?_erase ..) fun other => ?_
      simp [WorkerEvent.seq?]
    | batch worker seq events =>
      -- The worker's next batch is above its cursor.
      have fresh : (index.cursors.get? worker).any (seq ≤ ·) = false := by
        obtain ⟨-,feeds⟩ := flow worker known
        rw [pending_held held,WorkerEvent.worker,if_pos rfl] at feeds
        cases feeds with
        | cons above later =>
          cases standing : index.cursors.get? worker with
          | none => rfl
          | some last => simpa using above seq rfl last standing
      simp only [fresh,false_eq_true,if_false] at stepped
      cases stepped
      refine sound.advance (fun other member => mem_singleton.mp member ▸ known) fun other _ => ?_
      simp [Index.pending,at',Pump.event]
  | applying worker seq events =>
    have known : worker ∈ index.liveWorkers := passed (.batch worker seq events) (by simp [at',Pump.passed,Pump.event])
    have held : index.pump.event = [.batch worker seq events] := by rw [at',Pump.event]
    have inTree := (ranks_live ((live worker).mp known)).1
    rw [at'] at stepped
    cases events with
    | nil =>
      cases stepped
      refine sound.finish held known (fun other => get?_set ..) fun other => ?_
      by_cases same : other = worker
      · simp [same,WorkerEvent.worker,WorkerEvent.seq?]
      · simp [same,WorkerEvent.worker]
    | cons event rest =>
      cases stepped
      obtain ⟨formed',tended',spares⟩ := apply_spares formed tended worker event
      refine ⟨formed',tended',live,fun other absent => ?_,cursor,fun other member => mem_singleton.mp member ▸ known,
        fun other member => ?_⟩
      · exact spares other (fun same => absent (same ▸ inTree)) (tree other absent)
      · obtain ⟨complete,feeds⟩ := flow other member
        rw [pending_held held,WorkerEvent.worker] at complete feeds
        rw [@pending_held _ _ _ (.batch worker seq rest) rfl,WorkerEvent.worker]
        by_cases same : worker = other
        · rw [if_pos same] at complete feeds ⊢
          cases feeds with
          | cons above later => exact ⟨complete,.cons above later⟩
        · rw [if_neg same] at complete feeds ⊢
          exact ⟨complete,feeds⟩

theorem step_sound (index : Index υ) (action : Action υ) (next : Index υ) (sound : Sound index) (orderly : Orderly index action)
    (stepped : step index action = some next) : Sound next := by
  cases action with
  | addWorker url dpRanks =>
    simp only [step,orderly.1] at stepped
    cases stepped
    exact addWorker_sound sound orderly
  | removeWorker url =>
    simp only [step] at stepped
    split at stepped
    next => exact Option.some.inj stepped ▸ sound
    next dpRanks attached =>
      cases stepped
      refine sound.move _ fun part known other => ?_
      rcases known with rfl|rfl|rfl <;> grind [get?_set,Index.ranks,Phase.live,Phase.inTree,Phase.inCursors]
    next => cases stepped
  | proceed url =>
    obtain ⟨phase,called,stepped⟩ := bind_eq_some_iff.mp stepped
    exact proceed_sound sound called orderly stepped
  | publish event => exact publish_sound sound stepped
  | pump => exact pump_sound sound stepped

/-- A URL without a phase has no rank in the tree and no cursor, and of an attached worker every batch published since it was
    attached has been applied or waits for the pump, in order. -/
theorem detached_stays_detached {actions : List (Action υ)} (orderly : Runs.Guarded step Orderly start actions)
    (executed : Runs.run step start actions = some index) (worker : KvWorkerId υ) :
    (index.phases.get? worker.url = none → Gone index.tree worker ∧ index.cursors.get? worker = none) ∧
    (∀ dpRanks, index.phases.get? worker.url = some (.attached dpRanks) → worker.dpRank ∈ dpRanks →
      index.published worker = index.applied worker ++ seqs (index.pending worker)) := by
  have sound := Runs.run_keeps Sound step_sound sound_start orderly executed
  refine ⟨fun detached => ?_,fun dpRanks attached member => ?_⟩
  · have none (part : Phase → List Nat) : worker.dpRank ∉ index.ranks part worker.url := by simp [Index.ranks,detached]
    exact ⟨sound.tree worker (none _),sound.cursor worker (none _)⟩
  · have known : worker ∈ index.liveWorkers := (sound.live worker).mpr (by simpa [Index.ranks,attached,Phase.live] using member)
    exact (sound.flow worker known).1

/-- The first URL has rank 0. Its events each store a block. -/
def rank0 : KvWorkerId Nat := ⟨0,0⟩
def attach : List (Action Nat) := [.addWorker 0 [0],.proceed 0,.proceed 0]
def detach : List (Action Nat) := .removeWorker 0::List.replicate 5 (.proceed 0)
def stored (seq : Int) : Action Nat := .publish (.batch rank0 seq [.blockStored [7] none [] 1])

/-- A worker is attached, its batch is applied, and it is detached. -/
theorem detached_after_batch : ∃ index, Runs.run step start (attach ++ stored 1::List.replicate 5 .pump ++ detach) = some index ∧
    index.applied rank0 = [1] ∧ Gone index.tree rank0 ∧ index.cursors.get? rank0 = none := by
  refine ⟨_,rfl,rfl,(@detached_stays_detached _ _ _ (attach ++ stored 1::List.replicate 5 .pump ++ detach) ?_ rfl rank0).1 rfl⟩
  decide

/-- The pump has found the worker live when `remove_worker` runs from its start to its end. The batch is then stored for the
    detached worker, its cursor stays, and the first batch of the worker attached anew is not applied. -/
theorem detached_comes_back : ∃ index later,
    Runs.run step start (attach ++ stored 1::List.replicate 2 .pump ++ detach ++ List.replicate 3 .pump) = some index ∧
    index.phases.get? 0 = none ∧ (∃ node ∈ index.tree.nodes.get? 1, rank0 ∈ node.workers) ∧ index.cursors.get? rank0 = some 1 ∧
    Runs.run step index (attach ++ stored 1::List.replicate 3 .pump) = some later ∧
    later.published rank0 = [1] ∧ later.applied rank0 = [] ∧ later.pending rank0 = [] := by
  refine ⟨_,_,rfl,rfl,⟨_,rfl,?_⟩,rfl,rfl,rfl,rfl,rfl⟩
  decide

end Hypic.EventIndex
