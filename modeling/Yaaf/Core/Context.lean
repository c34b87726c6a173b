import Yaaf.Core.State

/-!
# The Operations of a Context

The methods of the `context` class that work on its maps, each as a function
on the state, and the forwarding a `user_context` puts in front of them.

A client call is one step, because each is one critical section, with one
exception: `add_actor` takes an id, looks its parent up under the shared
lock, runs `on_init`, and inserts under the exclusive lock. Its sections are
separate functions here and `AddStep` names them.

`stopActorImpl` is the recursion of `stop_actor_impl`. It runs entirely under
the exclusive lock, so it is one step, but it need not terminate on an
arbitrary map: a child set that leads back to an ancestor recurses forever.
The fuel is the depth of the recursion and `none` is running out of it. The
children of a description are an `unordered_set`, whose order is a parameter
of the configuration, and `on_stop` is virtual, so whether it reaches
`base_actor::on_stop` is one too. Both `on_stop` and `on_child_stopped` are
taken to return.

The address passed down the recursion is rebuilt from the id at every call,
so the callbacks see what `ActorAddress.ofId` makes of it.

## Main definitions

* `Config`: What is fixed for a run.
* `System.stopActorImpl`: The recursive stop.
* `ContextCall`, `contextCall`: The client operations.
* `UserContext.forward`: What a `user_context` makes of a call.
* `AddStep`, `addStep`: The critical sections of `add_actor`.
* `makeContext`: The state `make_context` returns in.
-/

namespace Yaaf

/-- What a run cannot change: the number of user threads, whether the network
    part is compiled in, the iteration order of an `unordered_set<id_t>`, and
    which actor objects have an `on_stop` that reaches the base class. -/
structure Config where
  userThreads : Nat
  network : Bool
  order : List IdT → List IdT
  order_perm : ∀ l, (order l).Perm l
  onStopBase : ActorPtr → Bool

variable {π : Type}

namespace System

/-- Append to the trace. -/
def emit (s : System π) (ev : Event π) : System π :=
  { s with trace := s.trace ++ [ev] }

/-- An absent object was dereferenced. -/
def crash (s : System π) : System π :=
  { s with fate := .undefined }

/-- An exception left a thread function. -/
def terminate (s : System π) : System π :=
  { s with fate := .terminated }

/-- Update one actor object. -/
def setObj (s : System π) (a : ActorPtr) (o : BaseActor) : System π :=
  { s with objs := Function.update s.objs a o }

@[simp] theorem setObj_self (s : System π) (a : ActorPtr) (o : BaseActor) :
    (s.setObj a o).objs a = o :=
  Function.update_self ..

@[simp] theorem setObj_of_ne (s : System π) {a b : ActorPtr} (h : b ≠ a) (o : BaseActor) :
    (s.setObj a o).objs b = s.objs b :=
  Function.update_of_ne h ..

/-- `mailbox::push` on an actor's mailbox. -/
def push (s : System π) (m : MailboxPtr) (e : Stored π) (from? : Option String) : System π :=
  { s with
    boxes := Function.update s.boxes m (s.boxes m ++ [e])
    trace := s.trace ++ [.pushed m e from?] }

/-- `context::user_post`: through the thread manager, which drops the task
    once it is stopping. A post on the reset thread manager dereferences a null
    pointer, and the task is lost with it. -/
def userPost (s : System π) (t : Task) : System π :=
  if s.shutdown.joined then { s.crash with dropped := s.dropped ++ [t] }
  else if s.shutdown.dropping then { s with dropped := s.dropped ++ [t] }
  else { s with queue := s.queue ++ [t] }

/-- The mailbox worker holds `_locker` exclusively while it fans out, and
    `_exchange_locker` shared with it. Every other exclusive section is a
    single step. -/
def fanningOut (s : System π) : Bool :=
  match s.worker with
  | .fanOut _ | .draining _ _ | .delivering _ _ _ _ => true
  | _ => false

/-- The mailbox worker holds `_locker` shared while it scans. -/
def scanning (s : System π) : Bool :=
  match s.worker with
  | .scan _ _ _ => true
  | _ => false

end System

/-- A user thread holds `_locker` shared inside the `ESCALATE` loop. -/
def Running.escalates : Running π → Bool
  | .applying _ (.escalating _ _) => true
  | _ => false

namespace System

/-- `_locker` can be taken shared. -/
def canShare (s : System π) : Bool :=
  !s.fanningOut

/-- `_locker` can be taken exclusively. -/
def canExclude (s : System π) : Bool :=
  !s.fanningOut && !s.scanning && !s.running.any Running.escalates

/-- The virtual `on_stop` of an actor object. -/
def onStop (cfg : Config) (s : System π) (id : IdT) (a : ActorPtr) : System π :=
  let o := s.objs a
  (s.setObj a (if cfg.onStopBase a then o.updateStatus .stoped "" else o)).emit (.stopped id a)

/-- The call of `on_child_stopped` on the parent, if there is one to call. -/
def tellParent (s : System π) (d : Description) (addr : ActorAddress)
    (reason : ActorStoppingReason) : System π :=
  if d.parent.empty then s
  else match s.actors.lookup d.parent with
    | none => s
    | some p => s.emit (.childStopped p.actor addr reason)

/-- `context::stop_actor_impl`, with the recursion depth as fuel. -/
def stopActorImpl (cfg : Config) : Nat → ActorAddress → ActorStoppingReason →
    System π → Option (System π)
  | 0, _, _, _ => none
  | fuel + 1, addr, reason, s =>
    match s.actors.lookup addr.id with
    -- Double-stop protection.
    | none => some s
    | some desc =>
      -- The children go first, each by its bare id and with all below it.
      match (cfg.order desc.children).foldlM
          (fun s c => stopActorImpl cfg fuel (.ofId c) reason s) s with
      | none => none
      | some s =>
        let s := (s.onStop cfg addr.id desc.actor).tellParent desc addr reason
        some { s with mboxes := s.mboxes.erase addr.id, actors := s.actors.erase addr.id }

/-- `context::stop_actor_impl_safety`: no chain of live actors is longer than
    the map, so that is all the depth the recursion can use. -/
def stopActorImplSafety (cfg : Config) (s : System π) (addr : ActorAddress)
    (reason : ActorStoppingReason) : Option (System π) :=
  stopActorImpl cfg (s.actors.keys.length + 1) (.ofId addr.id) reason s

/-- `context::create_exchange_unsafe`. -/
def createExchangeUnsafe (s : System π) (owner : ActorAddress) (name : String) : System π :=
  if s.exchanges.lookup name |>.isSome then s
  else { s with exchanges := s.exchanges.insert name ⟨[], owner, []⟩ }

/-- `context::subscribe_to_exchange`, under both locks. -/
def subscribeToExchange (s : System π) (target : ActorAddress) (name : String) : System π :=
  -- The exchange is made even for a target that is gone.
  let s := s.createExchangeUnsafe target name
  match s.exchanges.lookup name with
  | none => s
  | some ex =>
    if (s.actors.lookup target.id).isSome then
      { s with
        exchanges := s.exchanges.insert name { ex with subscribes := ex.subscribes ++ [target.id] }
        trace := s.trace ++ [.subscribed name target.id (s.mboxes.lookup target.id) ex.pub] }
    else s

/-- `context::publish_to_exchange`. -/
def publishToExchange (s : System π) (x : String) (e : Envelope π) : System π :=
  match s.exchanges.lookup x with
  | none => s
  | some ex =>
    -- `push` copies, and the copy constructor of an empty payload dereferences
    -- a null pointer.
    match e.copy? with
    | none => s.crash
    | some e =>
      { s with
        exchanges := s.exchanges.insert x { ex with pub := ex.pub ++ [e] }
        trace := s.trace ++ [.published x e] }

/-- `context::send_envelope`. -/
def sendEnvelope (s : System π) (target : ActorAddress) (e : Envelope π) : System π :=
  match s.mboxes.lookup target.id with
  -- The actor may be stopped.
  | none => s
  | some m =>
    match e.copy? with
    | none => s.crash
    | some e => s.push m e none

/-- `context::get_actor` by address. -/
def getActor (s : System π) (addr : ActorAddress) : Option ActorPtr :=
  (s.actors.lookup addr.id).map Description.actor

/-- `context::get_actor` by name. -/
def getActorByName (s : System π) (name : String) : Option ActorPtr :=
  (s.idByName.lookup name).bind fun id => (s.actors.lookup id).map Description.actor

/-- `context::get_address`. -/
def getAddress (s : System π) (name : String) : ActorAddress :=
  match (s.idByName.lookup name).bind fun id => s.actors.lookup id with
  | none => .null
  | some d => d.address

/-- The id `add_actor` takes. -/
def newId (s : System π) : IdT := ⟨s.nextActorId⟩

/-- The first line of `context::add_actor`. -/
def takeId (s : System π) (actorName : String) : System π :=
  { s with
    nextActorId := s.nextActorId + 1
    trace := s.trace ++ [.called s.newId actorName] }

/-- The description `add_actor` fills in before `on_init`, given the parent it
    found. -/
def describe (s : System π) (id : IdT) (actorName : String) (a : ActorPtr)
    (parent : Option (IdT × Description)) : Description :=
  let parentName := match parent with
    | none => ""
    | some (_, p) => p.name
  let name := parentName ++ "/" ++ actorName
  let result : ActorAddress := ⟨id, name⟩
  { actor := a
    address := result
    usrcont := ⟨result, s.ctxName ++ "/#usercontext#" ++ toString id.value.toNat⟩
    name := name
    parent := match parent with
      | none => IdT.none
      | some (p, _) => p
    children := [] }

/-- `parent_description->children.insert(new_id)`. A description that has left
    the map is reachable from no later operation, so nothing is recorded for
    it. -/
def addChild (actors : AList (fun _ : IdT => Description)) (parent child : IdT) :
    AList (fun _ : IdT => Description) :=
  if parent.empty then actors
  else match actors.lookup parent with
    | none => actors
    | some p => actors.insert parent { p with children := p.children.insert child }

/-- The exclusive section of `context::add_actor`. -/
def insertActor (s : System π) (id : IdT) (d : Description) (actorName : String) : System π :=
  { s with
    actors := (addChild s.actors d.parent id).insert id d
    idByName := s.idByName.insert d.name id
    mboxes := s.mboxes.insert id s.nextBox
    boxes := Function.update s.boxes s.nextBox []
    nextBox := s.nextBox + 1
    trace := s.trace ++ [.registered ⟨d, actorName, s.nextBox⟩] }

/-- The post of `on_start` that ends `context::add_actor`. -/
def postStart (s : System π) (a : ActorPtr) (m : MailboxPtr) : System π :=
  (s.userPost (.onStart a m)).emit (.startPosted m)

end System

/-- A call on the public interface of a context. -/
inductive ContextCall (π : Type)
  | addActor (actorName : String) (parent : ActorAddress) (a : ActorPtr)
  | sendEnvelope (target : ActorAddress) (e : Envelope π)
  | stopActor (addr : ActorAddress)
  | createExchange (owner : ActorAddress) (name : String)
  | subscribeToExchange (target : ActorAddress) (name : String)
  | publishToExchange (exchange : String) (e : Envelope π)

/-- A call an actor makes on the context object it was given. -/
inductive UserCall (π : Type)
  | addActor (actorName : String) (a : ActorPtr)
  | sendEnvelope (target : ActorAddress) (e : Envelope π)
  | stopActor (addr : ActorAddress)
  | createExchange (name : String)
  | subscribeToExchange (name : String)
  | publishToExchange (exchange : String) (e : Envelope π)

/-- The methods of `user_context`: which call on the context each makes, if
    any. The first three give up once the context is stopping. -/
def UserContext.forward (uc : UserContext) (stopping : Bool) : UserCall π → Option (ContextCall π)
  | .addActor n a => if stopping then none else some (.addActor n uc.addr a)
  | .sendEnvelope t e => if stopping then none else some (.sendEnvelope t ⟨e.payload, uc.addr⟩)
  | .stopActor addr => if stopping then none else some (.stopActor addr)
  | .createExchange n => some (.createExchange uc.addr n)
  | .subscribeToExchange n => some (.subscribeToExchange uc.addr n)
  | .publishToExchange x e => some (.publishToExchange x ⟨e.payload, uc.addr⟩)

/-- The envelope a `user_context` method copies before it forwards the call. -/
def UserCall.copied : UserCall π → Option (Envelope π)
  | .sendEnvelope _ e => some e
  | .publishToExchange _ e => some e
  | _ => none

/-- One client call, as the single critical section it is. -/
def contextCall (cfg : Config) (s : System π) : ContextCall π → Option (System π)
  | .addActor actorName parent a =>
    let curParent := if parent.empty then s.usrRoot else parent
    some { s.takeId actorName with
      adding := s.adding ++ [⟨actorName, a, s.newId, .called curParent⟩] }
  | .sendEnvelope target e =>
    if s.canShare then some (s.sendEnvelope target e) else none
  | .stopActor addr =>
    if s.canExclude then s.stopActorImplSafety cfg addr .manual else none
  | .createExchange owner name =>
    if !s.fanningOut then some (s.createExchangeUnsafe owner name) else none
  | .subscribeToExchange target name =>
    if s.canExclude then some (s.subscribeToExchange target name) else none
  | .publishToExchange x e => some (s.publishToExchange x e)

/-- A call through a `user_context`. The copy of the payload is made whether
    or not the target exists. -/
def userCall (cfg : Config) (s : System π) (uc : UserContext) (c : UserCall π) :
    Option (System π) :=
  match uc.forward s.shutdown.begun c with
  | none => some s
  | some call =>
    match c.copied with
    | none => contextCall cfg s call
    | some e => if e.payload.isSome then contextCall cfg s call else some s.crash

/-- The rest of `context::add_actor`. -/
inductive AddStep
  | lookup
  -- `on_init` returns, or throws.
  | init (returns : Bool)
  | insert
  | post
deriving DecidableEq, Repr

/-- One section of the `i`-th call of `add_actor` in progress. -/
def addStep (s : System π) (i : Nat) (st : AddStep) : Option (System π) :=
  match s.adding[i]? with
  | none => none
  | some c =>
    match st, c.stage with
    | .lookup, .called parent =>
      if parent.empty then
        let d := s.describe c.newId c.actorName c.actor none
        some { s with
          usrconts := s.usrconts ++ [d.usrcont]
          adding := s.adding.set i { c with stage := .built d } }
      else if s.canShare then
        match s.actors.lookup parent.id with
        -- `_actors[id]` makes an empty entry, and its settings are read next.
        | none => some s.crash
        | some p =>
          let d := s.describe c.newId c.actorName c.actor (some (parent.id, p))
          some { s with
            usrconts := s.usrconts ++ [d.usrcont]
            adding := s.adding.set i { c with stage := .built d } }
      else none
    | .init returns, .built d =>
      if returns then some { s with adding := s.adding.set i { c with stage := .ready d } }
      -- The exception goes to the caller; the id is spent.
      else some { s with adding := s.adding.eraseIdx i }
    | .insert, .ready d =>
      if s.canExclude then
        some { s.insertActor c.newId d c.actorName with
          adding := s.adding.set i { c with stage := .inserted s.nextBox } }
      else none
    | .post, .inserted m => some { s.postStart c.actor m with adding := s.adding.eraseIdx i }
    | _, _ => none

/-- A call of `add_actor` that nothing interrupts. -/
def System.addNow (s : System π) (actorName : String) (parent : ActorAddress) (a : ActorPtr) :
    System π :=
  let id := s.newId
  let m := s.nextBox
  let d := s.describe id actorName a ((s.actors.lookup parent.id).map fun p => (parent.id, p))
  let s := s.takeId actorName
  (({ s with usrconts := s.usrconts ++ [d.usrcont] }).insertActor id d actorName).postStart a m

/-- The state the constructor leaves. -/
def constructed (ctxName : String) : System π :=
  { ctxName := ctxName
    nextActorId := 1
    actors := ∅
    idByName := ∅
    mboxes := ∅
    exchanges := ∅
    usrRoot := .null
    objs := fun _ => {}
    boxes := fun _ => []
    nextBox := 0
    usrconts := []
    adding := []
    queue := []
    running := []
    dropped := []
    worker := .idle
    passDue := false
    shutdown := {}
    fate := .running
    trace := [] }

/-- `context::make_context`: the constructor and `start`. The framework's own
    actors are the objects 0 to 3. -/
def makeContext (cfg : Config) (ctxName : String) : System π :=
  let root : ActorAddress := ⟨⟨1⟩, "/root"⟩
  let s := (constructed ctxName).addNow "root" .null 0
  let s := s.addNow "usr" root 1
  -- From here on an empty parent means `/root/usr`.
  let s := { s with usrRoot := ⟨⟨2⟩, "/root/usr"⟩ }
  let s := s.addNow "sys" root 2
  if cfg.network then s.addNow "net" root 3 else s

end Yaaf
