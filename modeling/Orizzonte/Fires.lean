/-
Orizzonte/Fires.lean

What a step can do, said once.  `Fires m c fr o` lists the outcomes of a frame, one
rule for each program point, with the assertions of the storages as premises;
`fires_iff` proves that the list is `Frame.step`.  Every later argument about steps
is a case analysis on these rules and does not open the definition of the machine.
-/
import Orizzonte.Execute
import Orizzonte.Lts

namespace Orizzonte

universe u

variable {α : Type u}

/-- The outcomes of one step, by program point. -/
inductive Fires (m : Mem α) (c : Choice α) : Frame α → Outcome α → Prop
  | leafCall (t r f a input K) :
      Fires m c (.exec (.leaf t r f) a input K)
        { event := .leafCall a (input.read m)
          mem := if r then m else input.moveFrom m c
          frames := [.leafRun a r f input (input.read m) K] }
  | seqExec (A B a input K) :
      Fires m c (.exec (.seq A B) a input K)
        { event := .seqExec (a + A.size), mem := m
          frames := [.exec A a input (.seqK B (a + A.size) K)] }
  | construct (k) {n : ℕ} (fs : Fin (n + 1) → Node α) (a input K)
      (h : (input.moveFrom m c a).state.engaged = false) :
      Fires m c (.exec (.fork k fs) a input K)
        { event := .construct a
          mem := (input.moveFrom m c).setState a ⟨⟨input.read m, n + 1⟩, true⟩
          frames := [scheduleIfLast k a fs 0 K] }
  | leafRet (a r f input arg K) :
      Fires m c (.leafRun a r f input arg K)
        { event := .leafRet a (f.call (if r then input.read m else arg)), mem := m
          frames := [K.invoke (.temp (f.call (if r then input.read m else arg))),
            .leafTemp a (f.call (if r then input.read m else arg))] }
  | tempDrop (a out) :
      Fires m c (.leafTemp a out) { event := .tempDrop a, mem := m, frames := [] }
  | submitInline (k a) {n : ℕ} (fs : Fin (n + 1) → Node α) (i K) (h : c.inline = true) :
      Fires m c (.submit k a fs i K)
        { event := .submit a i true, mem := m
          frames := [.computation k a fs i.castSucc K, .inScheduler k a fs i K] }
  | submitThread (k a) {n : ℕ} (fs : Fin (n + 1) → Node α) (i K) (h : c.inline = false) :
      Fires m c (.submit k a fs i K)
        { event := .submit a i false, mem := m
          frames := [.inScheduler k a fs i K]
          spawned := [.computation k a fs i.castSucc K] }
  | schedRet (k a) {n : ℕ} (fs : Fin (n + 1) → Node α) (i K) :
      Fires m c (.inScheduler k a fs i K)
        { event := .schedRet a i, mem := m, frames := [scheduleIfLast k a fs i.succ K] }
  | inputRead (k a) {n : ℕ} (fs : Fin (n + 1) → Node α) (i K)
      (h : (m a).state.engaged = true) :
      Fires m c (.computation k a fs i K)
        { event := .inputRead a i, mem := m
          frames := [.exec (fs i) (Node.childAddr fs a i) (.input a)
            (.joinK k a n i (fs i).outType K)] }
  | slotWrite (a n i out K) :
      Fires m c (.allWrite a n i out K)
        { event := .slotWrite a i
          mem := (out.moveFrom m c).setSlots a
            (Function.update (out.moveFrom m c a).slots i (out.read m))
          frames := [.allFetchSub a n i K] }
  | allFetchSub (a n i K) (h : (m a).state.engaged = true) :
      Fires m c (.allFetchSub a n i K)
        { event := .fetchSub a n i (m a).state.bytes.left
          mem := m.setState a
            ⟨⟨(m a).state.bytes.input, (m a).state.bytes.left - 1⟩, (m a).state.engaged⟩
          frames := if (m a).state.bytes.left = 1 then [.allDestroy a n K] else [] }
  | allDestroy (a n K) (h : (m a).state.engaged = true) :
      Fires m c (.allDestroy a n K)
        { event := .destroy a, mem := m.setState a ⟨(m a).state.bytes, false⟩
          frames := [K.invoke (.slots a (n + 1))] }
  | anyFetchSub (a n i t out K) (h : (m a).state.engaged = true) :
      Fires m c (.anyFetchSub a n i t out K)
        { event := .fetchSub a n i (m a).state.bytes.left
          mem := m.setState a
            ⟨⟨(m a).state.bytes.input, (m a).state.bytes.left - 1⟩, (m a).state.engaged⟩
          frames := (if (m a).state.bytes.left = n + 1 then [.anyWrite a n i t out K] else []) ++
            (if (m a).state.bytes.left = 1 then [.anyDestroy a n] else []) }
  | variantWrite (a n i t out K) :
      Fires m c (.anyWrite a n i t out K)
        { event := .variantWrite a
          mem := (out.moveFrom m c).setAlt a (.variant t (out.read m))
          frames := [K.invoke (.alt a)] }
  | anyDestroy (a n) (h : (m a).state.engaged = true) :
      Fires m c (.anyDestroy a n)
        { event := .destroy a, mem := m.setState a ⟨(m a).state.bytes, false⟩
          frames := [.cleanup a] }
  | cleanup (a) :
      Fires m c (.cleanup a) { event := .cleanup a, mem := m, frames := [.countDown (some a)] }
  | thenCall (res) :
      Fires m c (.thenCall res)
        { event := .thenCall (res.read m), mem := res.moveFrom m c
          frames := [.thenRun] }
  | thenRet :
      Fires m c .thenRun { event := .thenRet, mem := m, frames := [.countDown none] }
  | countDown (o) : Fires m c (.countDown o) { event := .countDown o, mem := m, frames := [] }

variable {m : Mem α} {c : Choice α} {fr : Frame α} {o : Outcome α}

theorem except_bind_eq_ok {ε : Type*} {β γ : Type u} {x : Except ε β} {f : β → Except ε γ} {y : γ} :
    x >>= f = .ok y ↔ ∃ z, x = .ok z ∧ f z = .ok y := by
  cases x with
  | error e => simp [bind, Except.bind]
  | ok z => simp [bind, Except.bind]

theorem Fires.of_step (h : fr.step m c = .ok o) : Fires m c fr o := by
  cases fr with
  | exec g a input K =>
      cases g with
      | leaf t r f => cases h; exact .leafCall ..
      | seq A B => cases h; exact .seqExec ..
      | fork k fs =>
          obtain ⟨st, hst, h⟩ := except_bind_eq_ok.mp h
          obtain ⟨he, rfl⟩ := AlignedStorageFor.construct_eq_ok.mp hst
          cases h
          exact .construct k fs a input K he
  | leafRun => cases h; exact .leafRet ..
  | leafTemp => cases h; exact .tempDrop ..
  | submit k a fs i K =>
      rcases hc : c.inline with - | -
      · simp only [Frame.step, hc] at h
        cases h
        exact .submitThread k a fs i K hc
      · simp only [Frame.step, hc] at h
        cases h
        exact .submitInline k a fs i K hc
  | inScheduler => cases h; exact .schedRet ..
  | computation k a fs i K =>
      obtain ⟨sh, hsh, h⟩ := except_bind_eq_ok.mp h
      cases h
      exact .inputRead k a fs i K (AlignedStorageFor.access_eq_ok.mp hsh).1
  | allWrite => cases h; exact .slotWrite ..
  | allFetchSub a n i K =>
      obtain ⟨sh, hsh, h⟩ := except_bind_eq_ok.mp h
      obtain ⟨he, rfl⟩ := AlignedStorageFor.access_eq_ok.mp hsh
      cases h
      exact .allFetchSub a n i K he
  | allDestroy a n K =>
      obtain ⟨st, hst, h⟩ := except_bind_eq_ok.mp h
      obtain ⟨he, rfl⟩ := AlignedStorageFor.destroy_eq_ok.mp hst
      cases h
      exact .allDestroy a n K he
  | anyFetchSub a n i t out K =>
      obtain ⟨sh, hsh, h⟩ := except_bind_eq_ok.mp h
      obtain ⟨he, rfl⟩ := AlignedStorageFor.access_eq_ok.mp hsh
      cases h
      exact .anyFetchSub a n i t out K he
  | anyWrite => cases h; exact .variantWrite ..
  | anyDestroy a n =>
      obtain ⟨st, hst, h⟩ := except_bind_eq_ok.mp h
      obtain ⟨he, rfl⟩ := AlignedStorageFor.destroy_eq_ok.mp hst
      cases h
      exact .anyDestroy a n he
  | cleanup => cases h; exact .cleanup ..
  | thenCall => cases h; exact .thenCall ..
  | thenRun => cases h; exact .thenRet
  | countDown => cases h; exact .countDown ..

theorem Fires.step (h : Fires m c fr o) : fr.step m c = .ok o := by
  cases h with
  | construct k fs a input K h =>
      refine except_bind_eq_ok.mpr ⟨_, AlignedStorageFor.construct_eq_ok.mpr ⟨h, rfl⟩, rfl⟩
  | submitInline k a fs i K h => simp [Frame.step, h]
  | submitThread k a fs i K h => simp [Frame.step, h]
  | inputRead k a fs i K h =>
      exact except_bind_eq_ok.mpr ⟨_, AlignedStorageFor.access_eq_ok.mpr ⟨h, rfl⟩, rfl⟩
  | allFetchSub a n i K h | anyFetchSub a n i t out K h =>
      exact except_bind_eq_ok.mpr ⟨_, AlignedStorageFor.access_eq_ok.mpr ⟨h, rfl⟩, rfl⟩
  | allDestroy a n K h | anyDestroy a n h =>
      exact except_bind_eq_ok.mpr ⟨_, AlignedStorageFor.destroy_eq_ok.mpr ⟨h, rfl⟩, rfl⟩
  | _ => rfl

/-- The rules of `Fires` are exactly the steps of a frame. -/
theorem fires_iff : Fires m c fr o ↔ fr.step m c = .ok o := ⟨Fires.step, Fires.of_step⟩

/-- A step of the machine is a step of the frame on top of one thread. -/
theorem step_iff {s s' : State α} {t : ℕ} {e : Event α} :
    Step s (t, e) s' ↔ ∃ c fr rest o, s.threads[t]? = some (fr :: rest) ∧
      Fires s.mem c fr o ∧ o.event = e ∧ s' = s.after t rest o := by
  constructor
  · rintro ⟨c, h⟩
    unfold State.step at h
    split at h
    · rename_i fr rest hfr
      simp only [Option.some.injEq] at h
      rcases ho : fr.step s.mem c with e' | o
      · rw [ho] at h
        cases h
      · rw [ho] at h
        cases h
        exact ⟨c, fr, rest, o, hfr, .of_step ho, rfl, rfl⟩
    · cases h
  · rintro ⟨c, fr, rest, o, hfr, ho, rfl, rfl⟩
    exact ⟨c, by simp [State.step, hfr, ho.step, Except.map]⟩

end Orizzonte
