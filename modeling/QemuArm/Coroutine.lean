import QemuArm.Reach

/-!
# Coroutines

`qemu-coroutine.c` and the queues of `qemu-coroutine-lock.c`, as transitions of one thread.
A coroutine is named by its address. Its C stack is the list of its `coroutine_swap` calls
that have not returned, innermost first : a call is suspended in `qemu_coroutine_switch`
until something switches back to the coroutine, and then runs `qemu_co_queue_run_restart`
on its `target`, one wake-up per step (`coroutineSwapRest`). User code runs in a coroutine with
no such call. A step is `none` where the program aborts, fails an assertion, or enters
something that is not a coroutine.

The fields `deleted`, `fresh`, `moved` and `woken` of the state, and `gen` of a call, are
history and change nothing else.
-/

namespace QemuArm

inductive CoroutineAction where
  | yield
  | terminate
  deriving DecidableEq

/-- A call of `coroutine_swap`. `ret` is the result of `qemu_coroutine_switch`, `none`
before that returns, and `gen` how often `target` had been deleted when the call began. -/
structure SwapFrame where
  target : ℕ
  ret : Option CoroutineAction
  gen : ℕ
  deriving DecidableEq

/-- What the memory at an address is. The leader is the thread itself. -/
inductive CoStatus where
  | free
  | leader
  | live
  | pooled
  deriving DecidableEq

structure Coroutine where
  status : CoStatus
  caller : Option ℕ
  /-- `co_queue_wakeup` -/
  wakeup : List ℕ
  frames : List SwapFrame

structure CoState where
  co : ℕ → Coroutine
  current : ℕ
  pool : List ℕ
  /-- the entries of each `CoQueue` -/
  queue : ℕ → List ℕ
  /-- how often the coroutine at an address has been deleted -/
  deleted : ℕ → ℕ
  /-- the coroutines moved to a coroutine's list since it last yielded or terminated -/
  fresh : ℕ → List ℕ
  /-- how often the first was moved to the list of the second -/
  moved : ℕ → ℕ → ℕ
  /-- how often the first was entered from the list of the second -/
  woken : ℕ → ℕ → ℕ

def poolMaxSize : ℕ := 64

namespace CoState

@[simp] def modify (s : CoState) (c : ℕ) (f : Coroutine → Coroutine) : CoState :=
  { s with co := Function.update s.co c (f (s.co c)) }

/-- History : the coroutine yields or terminates. -/
@[simp] def stopped (s : CoState) (c : ℕ) : CoState :=
  { s with fresh := Function.update s.fresh c [] }

end CoState

/-- The thread with only its leader, at address 0. -/
@[simp] def coInit : CoState where
  co := fun c => ⟨if c = 0 then .leader else .free, none, [], []⟩
  current := 0
  pool := []
  queue := fun _ => []
  deleted := fun _ => 0
  fresh := fun _ => []
  moved := fun _ _ => 0
  woken := fun _ _ => 0

/-! ## Creating and deleting -/

/-- The new coroutine is the first of the pool, or memory that was free. -/
def qemuCoroutineCreate (a : ℕ) (s : CoState) : Option CoState :=
  match s.pool with
  | co :: pool =>
    if a = co then
      some { s.modify a (fun co => { co with status := .live, wakeup := [] }) with pool := pool }
    else none
  | [] =>
    if (s.co a).status = .free then some (s.modify a fun _ => ⟨.live, none, [], []⟩) else none

def coroutineDelete (co : ℕ) (s : CoState) : CoState :=
  let s := { s with deleted := Function.update s.deleted co (s.deleted co + 1) }
  if s.pool.length < poolMaxSize then
    { s.modify co (fun co => { co with status := .pooled, caller := none }) with
      pool := co :: s.pool }
  else s.modify co fun _ => ⟨.free, none, [], []⟩

/-! ## Switching -/

/-- The innermost call goes on with the result of its `qemu_coroutine_switch`. -/
def resumed (action : CoroutineAction) : List SwapFrame → List SwapFrame
  | [] => []
  | f :: fs => { f with ret := some action } :: fs

/-- The side of `target` : it starts its entry function, or its suspended call goes on. -/
@[simp] def qemuCoroutineSwitch (target : ℕ) (action : CoroutineAction) (s : CoState) : CoState :=
  { s.modify target (fun co => { co with frames := resumed action co.frames }) with
    current := target }

/-- `coroutine_swap` up to the switch. -/
@[simp] def coroutineSwap (self target : ℕ) (s : CoState) : CoState :=
  qemuCoroutineSwitch target .yield
    (s.modify self fun co => { co with frames := ⟨target, none, s.deleted target⟩ :: co.frames })

def qemuCoroutineEnter (co : ℕ) (s : CoState) : Option CoState :=
  if (s.co co).status ≠ .live then none
  else if (s.co co).caller.isSome then none -- re-entered recursively
  else
    some (coroutineSwap s.current co (s.modify co fun co => { co with caller := some s.current }))

def qemuCoroutineYield (s : CoState) : Option CoState :=
  match (s.co s.current).caller with
  | none => none -- yielding to no one
  | some target =>
    some (coroutineSwap s.current target
      ((s.modify s.current fun co => { co with caller := none }).stopped s.current))

/-- The entry function returns to `coroutine_trampoline`. -/
def coroutineTerminate (s : CoState) : Option CoState :=
  match (s.co s.current).caller with
  | none => none
  | some target => some (qemuCoroutineSwitch target .terminate (s.stopped s.current))

def qemuInCoroutine (s : CoState) : Bool := (s.co s.current).caller.isSome

/-! ## Queues -/

def qemuCoQueueWait (queue : ℕ) (s : CoState) : Option CoState :=
  qemuCoroutineYield
    { s with queue := Function.update s.queue queue (s.queue queue ++ [s.current]) }

/-- The loop moves the first entry, or all of them one after the other. -/
@[simp] def qemuCoQueueDoRestart (queue : ℕ) (single : Bool) (s : CoState) : CoState × Bool :=
  let self := s.current
  let next := if single then (s.queue queue).take 1 else s.queue queue
  ({ s.modify self (fun co => { co with wakeup := co.wakeup ++ next }) with
      queue := Function.update s.queue queue ((s.queue queue).drop next.length)
      fresh := Function.update s.fresh self (s.fresh self ++ next)
      moved := fun w x => if x = self then s.moved w x + next.count w else s.moved w x },
    !(s.queue queue).isEmpty)

def qemuCoQueueNext (queue : ℕ) (s : CoState) : Option (CoState × Bool) :=
  if qemuInCoroutine s then some (qemuCoQueueDoRestart queue true s) else none

def qemuCoQueueRestartAll (queue : ℕ) (s : CoState) : Option CoState :=
  if qemuInCoroutine s then some (qemuCoQueueDoRestart queue false s).1 else none

/-- `coroutine_swap` after the switch, one round of `qemu_co_queue_run_restart` at a time :
with an entry left it enters that one, otherwise it returns. -/
def coroutineSwapRest (s : CoState) : Option CoState :=
  match (s.co s.current).frames with
  | ⟨target, some ret, _⟩ :: frames =>
    match (s.co target).wakeup with
    | next :: wakeup =>
      qemuCoroutineEnter next
        { s.modify target (fun co => { co with wakeup := wakeup }) with
          woken := fun w x => if w = next ∧ x = target then s.woken w x + 1 else s.woken w x }
    | [] =>
      let s := s.modify s.current fun co => { co with frames := frames }
      match ret with
      | .yield => some s
      | .terminate => some (coroutineDelete target s)
  | _ => none

/-! ## Schedules -/

inductive CoOp where
  | create (co : ℕ)
  | enter (co : ℕ)
  | yield
  | terminate
  | wait (queue : ℕ)
  | next (queue : ℕ)
  | restartAll (queue : ℕ)
  /-- `coroutine_swap` goes on in the current coroutine -/
  | swapRest

/-- The current coroutine is in user code. -/
def CoState.inUserCode (s : CoState) : Bool := (s.co s.current).frames.isEmpty

def coStep : CoOp → CoState → Option CoState
  | .swapRest, s => coroutineSwapRest s
  | .create co, s => if s.inUserCode then qemuCoroutineCreate co s else none
  | .enter co, s => if s.inUserCode then qemuCoroutineEnter co s else none
  | .yield, s => if s.inUserCode then qemuCoroutineYield s else none
  | .terminate, s => if s.inUserCode then coroutineTerminate s else none
  | .wait queue, s => if s.inUserCode then qemuCoQueueWait queue s else none
  | .next queue, s => if s.inUserCode then (qemuCoQueueNext queue s).map Prod.fst else none
  | .restartAll queue, s => if s.inUserCode then qemuCoQueueRestartAll queue s else none

end QemuArm
