/-
Orizzonte/Execute.lean

`execute` of the four nodes, `schedule_if_last`, and `sync_execute`, as a machine
of threads with explicit stacks.

A thread is a list of frames, the running one first.  A frame is a program point
of one of the functions of `node/*.hpp` or `utility/sync_execute.hpp`, with the
locals that are still needed; a frame with nothing left to do is not kept, so a
call in tail position replaces its caller.  Every step of the machine is one
atomic action of the frame on top of one thread, and is reported by an `Event`.

Continuations are defunctionalised.  `Cont` lists the closures that `execute`
passes as `then`: the one of `sync_execute`, the one of `seq` and the one of a
child of an all or any node.  `cleanup` is handed down unchanged by every node,
so the machine has just the frame that calls it.

A scheduler may run the task it is given before its call returns, on the calling
thread (`inline`), or leave it to another thread, where it can start at any time,
also while the scheduler call is still running.  Which of the two it does, when
a thread moves, and what a consumer leaves in an object it moved from (`Choice`)
are not determined: every scheduler and every interleaving is a run.
-/
import Orizzonte.Node
import Orizzonte.Storage
import Mathlib.Logic.Function.Basic

namespace Orizzonte

variable {α : Type*}

/-! ### Memory of the graph -/

/-- `shared_state` of an all or any node. -/
structure SharedState (α : Type*) where
  input : Value α
  left : ℤ

/-- The members of an all or any node: `_state`, and `_values`, which is a tuple of
`slots` in an all node and a variant `alt` in an any node. -/
structure NodeMem (α : Type*) where
  state : AlignedStorageFor (SharedState α)
  slots : ℕ → Value α
  alt : Value α

/-- The all and any nodes of a graph object, by address. -/
abbrev Mem (α : Type*) := ℕ → NodeMem α

namespace Mem

variable (m : Mem α) (a : ℕ)

def setState (st : AlignedStorageFor (SharedState α)) : Mem α :=
  Function.update m a { m a with state := st }

def setSlots (slots : ℕ → Value α) : Mem α :=
  Function.update m a { m a with slots := slots }

def setAlt (x : Value α) : Mem α :=
  Function.update m a { m a with alt := x }

end Mem

/-- What the steps leave open: whether the scheduler runs a task inline, and the
contents of `_values` after a consumer has moved from it. -/
structure Choice (α : Type*) where
  inline : Bool
  slots : ℕ → Value α
  alt : Value α

instance : Inhabited (Choice α) := ⟨⟨false, fun _ => .nothing, .nothing⟩⟩

/-- The object that a forwarding reference (`input`, `out`, `res`) is bound to: the
result of a leaf on the stack, `_state->_input` of a node, or
`std::move(_values)` of an all node of arity `n` or of an any node. -/
inductive Src (α : Type*)
  | temp (x : Value α)
  | input (a : ℕ)
  | slots (a n : ℕ)
  | alt (a : ℕ)

namespace Src

def read (m : Mem α) : Src α → Value α
  | temp x => x
  | input a => (m a).state.bytes.input
  | slots a n => .tuple (List.ofFn fun i : Fin n => (m a).slots i)
  | alt a => (m a).alt

/-- The memory after an object was built or assigned from `FWD(x)`: `_values` is
the only member passed as an rvalue. -/
def moveFrom (m : Mem α) (c : Choice α) : Src α → Mem α
  | temp _ => m
  | input _ => m
  | slots a _ => m.setSlots a c.slots
  | alt a => m.setAlt a c.alt

end Src

/-! ### Continuations and frames -/

/-- The closures passed as `then`. -/
inductive Cont (α : Type*)
  /-- the lambda of `sync_execute` -/
  | root
  /-- `seq`: go on with `B`, which starts at `b` -/
  | seqK (B : Node α) (b : ℕ) (K : Cont α)
  /-- child `i`, with `out` of type `t`, of the node at `a` with `n + 1` children -/
  | joinK (k : Join) (a n i : ℕ) (t : Ty) (K : Cont α)

/-- Program points. -/
inductive Frame (α : Type*)
  /-- `g.execute(scheduler, input, then, cleanup)`, not yet begun -/
  | exec (g : Node α) (a : ℕ) (input : Src α) (K : Cont α)
  /-- `leaf::execute`, inside the callable -/
  | leafRun (a : ℕ) (byRef : Bool) (f : Callable α) (input : Src α) (arg : Value α)
      (K : Cont α)
  /-- `leaf::execute`, after `then` returned: the result of the callable dies -/
  | leafTemp (a : ℕ) (out : Value α)
  /-- `schedule_if<false>`, before the scheduler is called with child `i` -/
  | submit (k : Join) (a : ℕ) {n : ℕ} (fs : Fin (n + 1) → Node α) (i : Fin n) (K : Cont α)
  /-- inside that scheduler call -/
  | inScheduler (k : Join) (a : ℕ) {n : ℕ} (fs : Fin (n + 1) → Node α) (i : Fin n)
      (K : Cont α)
  /-- the body of `computation` for child `i` -/
  | computation (k : Join) (a : ℕ) {n : ℕ} (fs : Fin (n + 1) → Node α) (i : Fin (n + 1))
      (K : Cont α)
  /-- all, continuation of child `i`: before `get<i>(_values) = FWD(out)` -/
  | allWrite (a n i : ℕ) (out : Src α) (K : Cont α)
  /-- all, continuation of child `i`: before `fetch_sub` -/
  | allFetchSub (a n i : ℕ) (K : Cont α)
  /-- all: the last child, before `_state.destroy()` -/
  | allDestroy (a n : ℕ) (K : Cont α)
  /-- any, continuation of child `i`: before `fetch_sub` -/
  | anyFetchSub (a n i : ℕ) (t : Ty) (out : Src α) (K : Cont α)
  /-- any: the first child, before `_values = FWD(out)` -/
  | anyWrite (a n i : ℕ) (t : Ty) (out : Src α) (K : Cont α)
  /-- any: the last child, before `_state.destroy()` -/
  | anyDestroy (a n : ℕ)
  /-- any: the last child, before `cleanup()` -/
  | cleanup (a : ℕ)
  /-- `sync_execute`, first lambda: before the user's `then` is called -/
  | thenCall (res : Src α)
  /-- inside the user's `then`, which the first lambda called -/
  | thenRun
  /-- before `l.count_down()`, in the lambda called by the node at `o`, or in the
  first lambda -/
  | countDown (o : Option ℕ)

/-- `then(out)`. -/
def Cont.invoke : Cont α → Src α → Frame α
  | root, out => .thenCall out
  | seqK B b K, out => .exec B b out K
  | joinK .all a n i _ K, out => .allWrite a n i out K
  | joinK .any a n i t K, out => .anyFetchSub a n i t out K

/-- `detail::schedule_if_last<Fs...>(i, scheduler, computation)`. -/
def scheduleIfLast (k : Join) (a : ℕ) {n : ℕ} (fs : Fin (n + 1) → Node α) (i : Fin (n + 1))
    (K : Cont α) : Frame α :=
  if h : (i : ℕ) < n then .submit k a fs ⟨i, h⟩ K else .computation k a fs i K

/-! ### Steps -/

/-- What a step reports. -/
inductive Event (α : Type*)
  | leafCall (a : ℕ) (x : Value α)
  | leafRet (a : ℕ) (y : Value α)
  | tempDrop (a : ℕ)
  | seqExec (b : ℕ)
  | construct (a : ℕ)
  | submit (a i : ℕ) (inline : Bool)
  | schedRet (a i : ℕ)
  | inputRead (a i : ℕ)
  | slotWrite (a i : ℕ)
  /-- `fetch_sub` by child `i` of `n + 1` returned `r` -/
  | fetchSub (a n i : ℕ) (r : ℤ)
  | variantWrite (a : ℕ)
  | destroy (a : ℕ)
  | cleanup (a : ℕ)
  | thenCall (x : Value α)
  | thenRet
  | countDown (o : Option ℕ)

/-- How far an event counts the latch down. -/
def Event.counted : Event α → ℤ
  | countDown _ => 1
  | _ => 0

/-- Effect of one step of a frame: the frames that replace it, and the tasks handed
to other threads. -/
structure Outcome (α : Type*) where
  event : Event α
  mem : Mem α
  frames : List (Frame α)
  spawned : List (Frame α) := []

/-- One atomic action of the frame on top of a thread. -/
def Frame.step (m : Mem α) (c : Choice α) : Frame α → Except Assertion (Outcome α)
  | exec (.leaf _ byRef f) a input K =>
      .ok { event := .leafCall a (input.read m)
            mem := if byRef then m else input.moveFrom m c
            frames := [leafRun a byRef f input (input.read m) K] }
  | exec (.seq A B) a input K =>
      .ok { event := .seqExec (a + A.size)
            mem := m
            frames := [exec A a input (.seqK B (a + A.size) K)] }
  | exec (@Node.fork _ k n fs) a input K => do
      let m' := input.moveFrom m c
      -- `_input{FWD(input)}` is taken to copy or move the input, not to wrap or slice it
      let st ← (m' a).state.construct ⟨input.read m, n + 1⟩
      .ok { event := .construct a
            mem := m'.setState a st
            frames := [scheduleIfLast k a fs 0 K] }
  | leafRun a byRef f input arg K =>
      -- a by-value parameter was initialised at the call, a reference is read by `f`
      let y := f.call (if byRef then input.read m else arg)
      .ok { event := .leafRet a y
            mem := m
            frames := [K.invoke (.temp y), leafTemp a y] }
  | leafTemp a _ =>
      .ok { event := .tempDrop a, mem := m, frames := [] }
  | submit k a fs i K =>
      let task := computation k a fs i.castSucc K
      .ok { event := .submit a i c.inline
            mem := m
            frames := if c.inline then [task, inScheduler k a fs i K]
              else [inScheduler k a fs i K]
            spawned := if c.inline then [] else [task] }
  | inScheduler k a fs i K =>
      .ok { event := .schedRet a i
            mem := m
            frames := [scheduleIfLast k a fs i.succ K] }
  | @computation _ k a n fs i K => do
      let _ ← (m a).state.access
      .ok { event := .inputRead a i
            mem := m
            frames := [exec (fs i) (Node.childAddr fs a i) (.input a)
              (.joinK k a n i (fs i).outType K)] }
  | allWrite a n i out K =>
      let m' := out.moveFrom m c
      .ok { event := .slotWrite a i
            mem := m'.setSlots a (Function.update (m' a).slots i (out.read m))
            frames := [allFetchSub a n i K] }
  | allFetchSub a n i K => do
      let sh ← (m a).state.access
      .ok { event := .fetchSub a n i sh.left
            mem := m.setState a ⟨⟨sh.input, sh.left - 1⟩, (m a).state.engaged⟩
            frames := if sh.left = 1 then [allDestroy a n K] else [] }
  | allDestroy a n K => do
      let st ← (m a).state.destroy
      .ok { event := .destroy a
            mem := m.setState a st
            frames := [K.invoke (.slots a (n + 1))] }
  | anyFetchSub a n i t out K => do
      let sh ← (m a).state.access
      .ok { event := .fetchSub a n i sh.left
            mem := m.setState a ⟨⟨sh.input, sh.left - 1⟩, (m a).state.engaged⟩
            frames := (if sh.left = n + 1 then [anyWrite a n i t out K] else []) ++
              (if sh.left = 1 then [anyDestroy a n] else []) }
  | anyWrite a _ _ t out K =>
      .ok { event := .variantWrite a
            mem := (out.moveFrom m c).setAlt a (.variant t (out.read m))
            frames := [K.invoke (.alt a)] }
  | anyDestroy a _ => do
      let st ← (m a).state.destroy
      .ok { event := .destroy a
            mem := m.setState a st
            frames := [cleanup a] }
  | cleanup a =>
      .ok { event := .cleanup a, mem := m, frames := [countDown (some a)] }
  | thenCall res =>
      .ok { event := .thenCall (res.read m)
            mem := res.moveFrom m c
            frames := [thenRun] }
  | thenRun =>
      .ok { event := .thenRet, mem := m, frames := [countDown none] }
  | countDown o =>
      .ok { event := .countDown o, mem := m, frames := [] }

/-- Memory of the graph, the stacks of all threads, and the counter of the latch.
Thread `0` is the one that called `sync_execute`. -/
structure State (α : Type*) where
  mem : Mem α
  threads : List (List (Frame α))
  latch : ℤ

namespace State

/-- The state after thread `t` did `o` with `rest` below its top frame. -/
def after (s : State α) (t : ℕ) (rest : List (Frame α)) (o : Outcome α) : State α where
  mem := o.mem
  threads := s.threads.set t (o.frames ++ rest) ++ o.spawned.map fun fr => [fr]
  latch := s.latch - o.event.counted

/-- One step of thread `t`, when it has one. -/
def step (s : State α) (t : ℕ) (c : Choice α) : Option (Except Assertion (Event α × State α)) :=
  match s.threads[t]? with
  | some (fr :: rest) => some ((fr.step s.mem c).map fun o => (o.event, s.after t rest o))
  | _ => none

/-- `G.execute(scheduler, input, then, cleanup)` with the callbacks of `sync_execute`,
about to be called on a graph object with memory `m`. -/
def start (G : Node α) (m : Mem α) (input : Value α) : State α where
  mem := m
  threads := [[.exec G 0 (.temp input) .root]]
  latch := G.cleanupCount + 1

/-- `sync_execute(scheduler, G, then)`. -/
def syncExecute (G : Node α) (m : Mem α) : State α := start G m .nothing

end State

/-- `Step s (t, e) s'`: thread `t` does `e`. -/
def Step (s : State α) (l : ℕ × Event α) (s' : State α) : Prop :=
  ∃ c, s.step l.1 c = some (.ok (l.2, s'))

/-- No storage of the graph is engaged, as in a freshly built one.  The other members
are arbitrary. -/
def Mem.Unengaged (m : Mem α) : Prop := ∀ a, (m a).state.engaged = false

/-- A graph object after its construction. -/
def Mem.fresh : Mem α := fun _ => ⟨⟨⟨.nothing, 0⟩, false⟩, fun _ => .nothing, .nothing⟩

theorem Mem.fresh_unengaged : (Mem.fresh : Mem α).Unengaged := fun _ => rfl

instance : Inhabited (State α) := ⟨⟨Mem.fresh, [], 0⟩⟩

end Orizzonte
