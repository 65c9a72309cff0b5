import Mathlib
import ContractBuild.Host.Publish
import ContractBuild.Proofs.Program

/-!
Single steps, and chunks written by many of them. A chunk is handed on in pieces, and nobody waits
for the last one: what is written is a part of the chunk, and all of it if neither the call nor the
one after it reports a failure.
-/

namespace ContractBuild.Host

open ContractBuild.Disk

/-! ### One step -/

section Step

variable {P : Host → Prop} {E : Disk.Fault → Host → Prop}

/-- A step that does nothing if it fails. -/
lemma ensures_step_of {α : Type} {op : Tree → Except Disk.Fault (α × Tree)} {Q : α → Host → Prop}
    (herror : ∀ (h : Host) f, P h →
      h.refuse h.steps = some f ∨ op (h.change h.steps h.tree) = .error f →
        E f { h with tree := h.change h.steps h.tree, steps := h.steps + 1 })
    (hok : ∀ (h : Host) a t, P h → op (h.change h.steps h.tree) = .ok (a, t) →
      Q a { h with tree := t, steps := h.steps + 1 }) :
    Ensures P (step op).run (Meets E Q) := by
  intro h hh
  unfold step
  dsimp only [ExceptT.run]
  split
  · next f hrefuse => exact herror h f hh (.inl hrefuse)
  · split
    · next hop => exact hok h _ _ hh hop
    · next f hop => exact herror h f hh (.inr hop)

/-- A step that writes: if it is refused, it may have written the first bytes. -/
lemma ensures_writing_of {op : (Bytes → Bytes) → Tree → Except Disk.Fault Tree} {Q : Host → Prop}
    (herror : ∀ (h : Host) f, P h →
      h.refuse h.steps = some f ∨ op id (h.change h.steps h.tree) = .error f →
        E f { h with tree := h.change h.steps h.tree, steps := h.steps + 1 })
    (hpart : ∀ (h : Host) f n t, P h → h.refuse h.steps = some f → h.torn h.steps = n + 1 →
      op (·.take n) (h.change h.steps h.tree) = .ok t →
        E f { h with tree := t, steps := h.steps + 1 })
    (hok : ∀ (h : Host) t, P h → op id (h.change h.steps h.tree) = .ok t →
      Q { h with tree := t, steps := h.steps + 1 }) :
    Ensures P (writing op).run (Meets E fun _ => Q) := by
  intro h hh
  change Meets E (fun _ => Q) ((writing op).run h : Except Disk.Fault Unit × Host).1
    ((writing op).run h : _ × Host).2
  unfold writing step
  dsimp only [ExceptT.run]
  split
  · next f hrefuse =>
    split
    · exact herror h f hh (.inl hrefuse)
    · next n htorn =>
      cases hop : op (·.take n) (h.change h.steps h.tree) with
      | ok t => exact hpart h f n t hh hrefuse htorn hop
      | error _ => exact herror h f hh (.inl hrefuse)
  · next hrefuse =>
    cases hop : op id (h.change h.steps h.tree) with
    | ok t => exact hok h t hh hop
    | error f => exact herror h f hh (.inr hop)

end Step

/-! ### Pieces -/

/-- The pieces of a chunk make it up. -/
lemma flatten_pieces (chunk : Bytes) : (Writer.pieces chunk).flatten = chunk := by
  have htake : ∀ n, ((List.range n).map fun i =>
      (chunk.drop (i * Writer.pieceLimit)).take Writer.pieceLimit).flatten =
        chunk.take (n * Writer.pieceLimit) := by
    intro n
    induction n with
    | zero => simp
    | succ n ih =>
      rw [List.range_succ, List.map_append, List.flatten_append, ih, Nat.succ_mul, List.take_add]
      simp
  have hlimit : 0 < Writer.pieceLimit := by decide
  rw [Writer.pieces, htake]
  refine List.take_of_length_le ?_
  have hdiv := Nat.div_add_mod (chunk.length + (Writer.pieceLimit - 1)) Writer.pieceLimit
  have hmod := Nat.mod_lt (chunk.length + (Writer.pieceLimit - 1)) hlimit
  rw [Nat.mul_comm]
  omega

/-- There is something to write in each of them. -/
lemma ne_nil_of_mem_pieces {chunk piece : Bytes} (h : piece ∈ Writer.pieces chunk) :
    piece ≠ [] := by
  obtain ⟨i, hi, rfl⟩ := List.mem_map.mp h
  have hlimit : 0 < Writer.pieceLimit := by decide
  have hfull := (Nat.le_div_iff_mul_le hlimit).mp (List.mem_range.mp hi)
  rw [Nat.succ_mul] at hfull
  refine List.ne_nil_of_length_pos ?_
  rw [List.length_take, List.length_drop]
  omega

/-! ### Chunks -/

/-- Kept up while a file is added to: `H content` says that the file holds `content`. -/
structure Holder (H : Bytes → Host → Prop) (p : Path) : Prop where
  append : ∀ content more, Ensures (H content) (append p more).run fun r h =>
    ∃ part, part <+: more ∧ (r = .ok () → part = more) ∧ H (content ++ part) h
  wait : ∀ content, Keeps (H content) (alter fun t => .ok t).run

/-- A step that fails adds a part, and one that only waits adds nothing. -/
lemma Holder.of_step {H : Bytes → Host → Prop} {p : Path}
    (hstay : ∀ content (h : Host), H content h →
      H content { h with tree := h.change h.steps h.tree, steps := h.steps + 1 })
    (hadd : ∀ content more (h : Host) t, H content h →
      (h.change h.steps h.tree).append p more = .ok t →
        H (content ++ more) { h with tree := t, steps := h.steps + 1 }) : Holder H p where
  append content more := by
    have happend : Ensures (H content) (Host.append p more).run (Meets
        (fun _ h => ∃ part, part <+: more ∧ H (content ++ part) h) fun _ => H (content ++ more)) := by
      refine ensures_writing_of (fun h f hh _ => ⟨[], List.nil_prefix, ?_⟩)
        (fun h f n t hh _ _ hok => ⟨more.take n, List.take_prefix _ _, hadd _ _ h t hh hok⟩)
        fun h t hh hok => hadd _ _ h t hh hok
      rw [List.append_nil]
      exact hstay content h hh
    refine happend.mono fun r h hr => ?_
    cases r with
    | ok _ => exact ⟨more, List.prefix_rfl, fun _ => rfl, hr⟩
    | error f =>
      obtain ⟨part, hpart, hh⟩ := hr
      exact ⟨part, hpart, nofun, hh⟩
  wait content := by
    refine keeps_iff_ends.mpr (ensures_step_of (fun h f hh _ => hstay content h hh)
      fun h a t hh hok => ?_)
    cases hok
    exact hstay content h hh

/-- A writer has handed on a chunk, of which a part has been written. A failure that has not been
reported keeps it from writing more. -/
structure Wrote (w : Writer) (chunk part : Bytes) (r : Except Disk.Fault Unit) (w' : Writer) :
    Prop where
  isPrefix : part <+: chunk
  idle : chunk = [] → r = .ok ()
  whole : r = .ok () → w'.fault = none → part = chunk
  stuck : w.fault ≠ none → part = [] ∧ (chunk ≠ [] → r ≠ .ok ()) ∧ (r = .ok () → w'.fault ≠ none)
  reported : r ≠ .ok () → w'.fault = none
  same : w' = { w with fault := w'.fault }

variable {H : Bytes → Host → Prop} {w : Writer} {content : Bytes}

lemma Holder.ensures_writePieces (hH : Holder H w.temp) (ps : List Bytes)
    (hps : ∀ piece ∈ ps, piece ≠ []) (content : Bytes) :
    Ensures (H content) (w.writePieces ps) fun r h =>
      ∃ part, Wrote w ps.flatten part r.1 r.2 ∧ H (content ++ part) h := by
  induction ps generalizing w content with
  | nil =>
    intro h hh
    refine ⟨[], ⟨List.prefix_rfl, fun _ => rfl, fun _ _ => rfl, fun hstuck => ⟨rfl,
      fun h => absurd rfl h, fun _ => hstuck⟩, fun hr => absurd rfl hr, rfl⟩, ?_⟩
    rwa [List.append_nil]
  | cons piece rest ih =>
    obtain ⟨temp, target, isOpen, fault⟩ := w
    have hidle : (piece :: rest).flatten ≠ [] := fun hnil =>
      hps piece List.mem_cons_self (List.append_eq_nil_iff.mp hnil).1
    cases fault with
    | some f =>
      intro h hh
      refine ⟨[], ⟨List.nil_prefix, fun hnil => absurd hnil hidle, nofun, fun _ => ⟨rfl, fun _ => nofun, nofun⟩, fun _ => rfl,
        rfl⟩, ?_⟩
      rwa [List.append_nil]
    | none =>
      have hpiece : Ensures (H content) (Writer.writePiece ⟨temp, target, isOpen, none⟩ piece)
          fun w' h => ∃ part, part <+: piece ∧ (w'.fault = none → part = piece) ∧
            w' = ⟨temp, target, isOpen, w'.fault⟩ ∧ H (content ++ part) h := by
        refine (hH.append content piece).bind fun r => ?_
        cases r with
        | ok _ => exact fun h ⟨part, hpart, hwhole, hh⟩ => ⟨part, hpart, fun _ => hwhole rfl, rfl, hh⟩
        | error f => exact fun h ⟨part, hpart, _, hh⟩ => ⟨part, hpart, nofun, rfl, hh⟩
      refine hpiece.bind fun w' h => ?_
      rintro ⟨part, hpart, hwhole, hw', hh⟩
      have htemp : w'.temp = temp := congrArg Writer.temp hw'
      obtain ⟨part', hwrote, hh'⟩ := ih (w := w') (htemp ▸ hH)
        (fun piece hpiece => hps piece (List.mem_cons_of_mem _ hpiece)) (content ++ part) h hh
      -- after a piece that has not been written nothing is
      refine ⟨part ++ part', ⟨?_, fun hnil => absurd hnil hidle, fun hr hfault => ?_,
        fun hstuck => absurd rfl hstuck, hwrote.reported, hwrote.same.trans (by rw [hw'])⟩, by rwa [← List.append_assoc]⟩
      · rw [List.flatten_cons]
        by_cases hfault : w'.fault = none
        · rw [hwhole hfault, List.prefix_append_right_inj]
          exact hwrote.isPrefix
        · rw [(hwrote.stuck hfault).1, List.append_nil]
          exact hpart.trans (List.prefix_append _ _)
      · have hnone : w'.fault = none := by
          by_contra hstuck
          exact (hwrote.stuck hstuck).2.2 hr hfault
        rw [List.flatten_cons, hwhole hnone, hwrote.whole hr hfault]

lemma Holder.ensures_write (hH : Holder H w.temp) (hopen : w.isOpen = true) (content chunk : Bytes) :
    Ensures (H content) (w.write chunk) fun r h =>
      ∃ part, Wrote w chunk part r.1 r.2 ∧ H (content ++ part) h := by
  have hpieces := hH.ensures_writePieces (Writer.pieces chunk)
    (fun _ => ne_nil_of_mem_pieces) content
  rw [flatten_pieces] at hpieces
  rwa [Writer.write, if_pos hopen]

/-- A writer has been synced; it is closed, and a failure that had not been reported is. -/
structure Synced (w : Writer) (r : Except Disk.Fault Unit) (w' : Writer) : Prop where
  closed : w' = if w.isOpen then { w with isOpen := false, fault := none } else w
  reports : w.isOpen = true → w.fault ≠ none → r ≠ .ok ()

lemma Synced.target {w w' : Writer} {r : Except Disk.Fault Unit} (h : Synced w r w') :
    w'.target = w.target := by
  rw [h.closed]
  split_ifs
  · rfl
  · rfl

lemma Synced.temp {w w' : Writer} {r : Except Disk.Fault Unit} (h : Synced w r w') :
    w'.temp = w.temp := by
  rw [h.closed]
  split_ifs
  · rfl
  · rfl

lemma ensures_sync {P : Host → Prop} (hwait : Keeps P (alter fun t => .ok t).run) (w : Writer) :
    Ensures P w.sync fun r h => Synced w r.1 r.2 ∧ P h := by
  obtain ⟨temp, target, isOpen, fault⟩ := w
  cases isOpen with
  | false => exact fun h hh => ⟨⟨rfl, nofun⟩, hh⟩
  | true =>
    cases fault with
    | some f => exact fun h hh => ⟨⟨rfl, fun _ _ => nofun⟩, hh⟩
    | none => exact fun h hh => ⟨⟨rfl, fun _ hstuck => absurd rfl hstuck⟩, hwait h hh⟩

lemma ensures_checked {P E : Host → Prop} {Q : Writer → Host → Prop}
    {call : OnHost (Except Disk.Fault Unit × Writer)}
    (h : Ensures P call fun r h => match r.1 with
      | .ok () => Q r.2 h
      | .error _ => E h) : Ensures P (Writer.checked call).run (Ends E Q) := by
  refine Ensures.bind_ok (Ensures.lift (E := E) h) fun r => ?_
  obtain ⟨r, w⟩ := r
  cases r with
  | ok _ => exact fun h hh => hh
  | error f => exact fun h hh => hh

/-- A writer that can be synced is closed, and the file is as it was. -/
lemma ensures_checked_sync {P : Host → Prop} (hwait : Keeps P (alter fun t => .ok t).run)
    (w : Writer) : Ensures P (Writer.checked w.sync).run
      (Ends P fun w' h => Synced w (.ok ()) w' ∧ P h) := by
  refine ensures_checked ((ensures_sync hwait w).mono fun r h hr => ?_)
  obtain ⟨r, w'⟩ := r
  cases r with
  | ok _ => exact hr
  | error f => exact hr.2

lemma checked_sync_of_closed (hw : w.isOpen = false) : Writer.checked w.sync = pure w := by
  obtain ⟨temp, target, isOpen, fault⟩ := w
  obtain rfl : isOpen = false := hw
  rfl

/-- A chunk has been written when the file has been synced after it. -/
lemma Holder.ensures_fill (hH : Holder H w.temp) (hopen : w.isOpen = true) (chunk : Bytes) :
    Ensures (H []) (do
      let w ← Writer.checked (w.write chunk)
      Writer.checked w.sync : Attempt Disk.Fault Writer).run
      (Ends (fun h => ∃ content, H content h) fun w' h =>
        w' = { w with isOpen := false, fault := none } ∧ H chunk h) := by
  have hwrite : Ensures (H []) (Writer.checked (w.write chunk)).run
      (Ends (fun h => ∃ content, H content h) fun w' h =>
        ∃ part, Wrote w chunk part (.ok ()) w' ∧ H part h) := by
    refine ensures_checked ((hH.ensures_write hopen [] chunk).mono fun r h hr => ?_)
    obtain ⟨r, w'⟩ := r
    obtain ⟨part, hwrote, hh⟩ := hr
    cases r with
    | ok _ => exact ⟨part, hwrote, hh⟩
    | error f => exact ⟨part, hh⟩
  refine Ensures.bind_ok hwrite fun w' h => ?_
  rintro ⟨part, hwrote, hh⟩
  have hopen' : w'.isOpen = true := (congrArg Writer.isOpen hwrote.same).trans hopen
  refine ((ensures_checked_sync (hH.wait part) w').mono (Ends.imp (fun s hs => ⟨part, hs⟩) ?_)) h hh
  rintro w'' s ⟨hsynced, hs⟩
  have hfault : w'.fault = none := by
    by_contra hstuck
    exact hsynced.reports hopen' hstuck rfl
  rw [hwrote.whole rfl hfault] at hs
  refine ⟨?_, hs⟩
  rw [hsynced.closed, if_pos hopen', hwrote.same]

end ContractBuild.Host
