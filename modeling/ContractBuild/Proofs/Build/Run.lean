import Mathlib
import ContractBuild.Build.Run
import ContractBuild.Proofs.Program

/-!
Work on a host or a bench, seen from the run it is part of.
-/

namespace ContractBuild.Build

variable {P : Bench → Prop} {ε α : Type}

lemma gives_onHost {act : Attempt ε α} {Q : α → Prop} (h : Gives act Q) :
    Gives (onHost act) Q := by
  intro b a b' hrun
  rcases hact : act.run b.host with ⟨res, host⟩
  have hres : ((onHost act).run b : Except ε α × Bench).1 = res := by
    change (act.run b.host : Except ε α × Host).1 = res
    rw [hact]
  rw [hrun] at hres
  exact h b.host a host (hact.trans (by rw [← hres]))

lemma gives_atBench {wrap : ε → Fault} {act : BenchAttempt ε α} {Q : α → Prop} (h : Gives act Q) :
    Gives (atBench wrap act) Q := by
  intro r a r' hrun
  change atBench wrap act r = _ at hrun
  unfold atBench at hrun
  split at hrun
  · next a' b hact =>
    cases hrun
    exact h r.bench a b hact
  · cases hrun

lemma run_onHost {act : Attempt ε α} {b : Bench} {res : Except ε α} {host : Host}
    (h : act.run b.host = (res, host)) : (onHost act).run b = (res, { b with host }) := by
  change ((act.run b.host : Except ε α × Host).1,
    { b with host := (act.run b.host : Except ε α × Host).2 }) = _
  rw [h]

lemma run_atBench_of_error {wrap : ε → Fault} {act : BenchAttempt ε α} {r : Run} {e : ε}
    {bench : Bench} (h : act.run r.bench = (.error e, bench)) :
    (atBench wrap act).run r = (.error (wrap e), { r with bench }) := by
  change atBench wrap act r = _
  unfold atBench
  change act r.bench = _ at h
  rw [h]

lemma run_atBench_of_ok {wrap : ε → Fault} {act : BenchAttempt ε α} {r : Run} {a : α}
    {bench : Bench} (h : act.run r.bench = (.ok a, bench)) :
    (atBench wrap act).run r = (.ok a, { r with bench }) := by
  change atBench wrap act r = _
  unfold atBench
  change act r.bench = _ at h
  rw [h]

/-- A property of the bench, as one of the run. -/
def OnRun (P : Bench → Prop) (r : Run) : Prop := P r.bench

lemma ensures_onHost {act : Attempt ε α} {Q : Except ε α → Bench → Prop}
    (h : ∀ tools, Ensures (fun host => P ⟨host, tools⟩) act.run fun r host => Q r ⟨host, tools⟩) :
    Ensures P (onHost act).run Q :=
  fun b hb => h b.tools b.host hb

lemma keeps_onHost {act : Attempt ε α}
    (h : ∀ tools, Keeps (fun host => P ⟨host, tools⟩) act.run) : Keeps P (onHost act).run :=
  ensures_onHost h

lemma ensures_atHost {act : OnHost α} {Q : α → Bench → Prop}
    (h : ∀ tools, Ensures (fun host => P ⟨host, tools⟩) act fun a host => Q a ⟨host, tools⟩) :
    Ensures (OnRun P) (atHost act) fun a => OnRun (Q a) :=
  fun r hr => h r.bench.tools r.bench.host hr

lemma keeps_atHost {act : OnHost α} (h : ∀ tools, Keeps (fun host => P ⟨host, tools⟩) act) :
    Keeps (OnRun P) (atHost act) :=
  ensures_atHost h

lemma ensures_atBench {wrap : ε → Fault} {act : BenchAttempt ε α} {E : Bench → Prop}
    {Q : α → Bench → Prop} (h : Ensures P act.run (Ends E Q)) :
    Ensures (OnRun P) (atBench wrap act).run (Ends (OnRun E) fun a => OnRun (Q a)) := by
  intro r hr
  have hrun := h r.bench hr
  change Ends _ _ (atBench wrap act r).1 (atBench wrap act r).2
  unfold atBench
  revert hrun
  change Ends E Q (act r.bench).1 (act r.bench).2 → _
  generalize (act r.bench : Except ε α × Bench) = p
  obtain ⟨res, b⟩ := p
  intro hrun
  cases res with
  | ok a => exact hrun
  | error e => exact hrun

lemma keeps_atBench {wrap : ε → Fault} {act : BenchAttempt ε α} (h : Keeps P act.run) :
    Keeps (OnRun P) (atBench wrap act).run :=
  keeps_iff_ends.mpr (ensures_atBench (keeps_iff_ends.mp h))

lemma keeps_warn (d : Diagnostic) : Keeps (OnRun P) (warn d) := fun _ hr => hr

lemma keeps_advance {listener : Listener}
    (h : ∀ stage status tools, Keeps (fun host => P ⟨host, tools⟩) (listener stage status))
    (next : State) (status : Status) : Keeps (OnRun P) (advance listener next status) := by
  unfold advance
  split
  · next stage _ => exact (keeps_atHost (h stage status)).bind fun _ _ hr => hr
  · exact fun _ hr => hr

lemma keeps_fail {listener : Listener}
    (h : ∀ stage status tools, Keeps (fun host => P ⟨host, tools⟩) (listener stage status))
    (first : Fault) (more : List Fault) : Keeps (OnRun P) (fail listener first more) :=
  (keeps_advance h _ _).bind fun _ _ hr => hr

end ContractBuild.Build
