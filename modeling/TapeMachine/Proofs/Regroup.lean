import TapeMachine.Proofs.Grouping
import TapeMachine.Proofs.Lockstep
import TapeMachine.Proofs.Simulate
import TapeMachine.Proofs.Size

namespace TapeMachine

section Numbers

variable {α : Type} {ts : List (Token (Counted α))} {i j k : Nat}

/-- The index of the first command that instruction `k` stands for. -/
def firstCommand (ts : List (Token (Counted α))) (k : Nat) : Nat :=
  ((ts.take k).flatMap Token.expand).length

/-- Instruction `k` counts a run of commands, and command `n` is in it. -/
def CountedBy (ts : List (Token (Counted α))) (n k : Nat) : Prop :=
  ∃ r, ts[k]? = some (.op r) ∧ firstCommand ts k ≤ n ∧ n < firstCommand ts k + r.count

theorem firstCommand_succ {t : Token (Counted α)} (h : ts[k]? = some t) :
    firstCommand ts (k + 1) = firstCommand ts k + t.expand.length := by
  rw [firstCommand, List.take_add_one, h, List.flatMap_append, List.length_append]
  simp [firstCommand]

theorem firstCommand_of_length_le (h : ts.length ≤ k) : firstCommand ts k = (ts.flatMap Token.expand).length := by
  rw [firstCommand, List.take_of_length_le h]

/-- The commands of an instruction stand from its first command on. -/
theorem getElem?_firstCommand {t : Token (Counted α)} (h : ts[k]? = some t) {m : Nat} (hm : m < t.expand.length) :
    (ts.flatMap Token.expand)[firstCommand ts k + m]? = t.expand[m]? := by
  obtain ⟨hk, rfl⟩ := List.getElem?_eq_some_iff.mp h
  have hsplit : ts.flatMap Token.expand = (ts.take k).flatMap Token.expand ++
      (ts[k].expand ++ (ts.drop (k + 1)).flatMap Token.expand) := by
    rw [← List.flatMap_cons, ← List.drop_eq_getElem_cons hk, ← List.flatMap_append, List.take_append_drop]
  rw [hsplit, firstCommand, List.getElem?_append_right (Nat.le_add_right _ _), Nat.add_sub_cancel_left,
    List.getElem?_append_left hm]

theorem Token.expand_eq_bindToken :
    (Token.expand : Token (Counted α) → _) = Block.bindToken fun r => List.replicate r.count r.op := by
  funext t
  cases t with
  | op r => exact List.map_replicate.symm
  | bracket b => rfl

theorem Balanced.expand (hb : Balanced ts) : Balanced (ts.flatMap Token.expand) := by
  rw [Token.expand_eq_bindToken, balanced_iff_closes, Block.closes_bind]
  exact balanced_iff_closes.mp hb

theorem Partners.expand (h : Partners ts i j) :
    Partners (ts.flatMap Token.expand) (firstCommand ts i) (firstCommand ts j) := by
  obtain ⟨pre, body, post, rfl, hb, rfl, rfl⟩ := partners_iff.mp h
  refine partners_iff.mpr ⟨pre.flatMap Token.expand, body.flatMap Token.expand, post.flatMap Token.expand, ?_,
    hb.expand, ?_, ?_⟩
  · simp [Token.expand]
  · rw [firstCommand, List.take_left]
  · have htake : (pre ++ Token.opening :: (body ++ .closing :: post)).take (pre.length + body.length + 1) =
        pre ++ .opening :: body := by
      rw [Nat.add_assoc, List.take_length_add_append, List.take_succ_cons, List.take_left]
    rw [firstCommand, firstCommand, htake, List.take_left]
    simp [Token.expand, Nat.add_assoc]

end Numbers

section Machines

variable {step step' : Step} {ts : List (Token (Counted Basic))}

/-- The engine that runs the commands is where the other one's next instruction begins, with the same tape and bytes. -/
structure Abreast (ts : List (Token (Counted Basic))) (c : Config) (io : Streams) (d : Config) (jo : Streams) :
    Prop where
  pc : c.pc = firstCommand ts d.pc
  tape : c.tape = d.tape
  bytes : io.SameBytes jo

/-- Both runs have dealt with the same bytes and have the same verdict, but that a move off the tape is reported by the
instruction that counts the command. -/
structure Regrouped (ts : List (Token (Counted Basic))) (x y : Ended) : Prop where
  bytes : x.io.SameBytes y.io
  verdict : x.verdict.Renumbered (CountedBy ts) y.verdict

theorem covers_counted (hf : Follows step Basic.act (ts.flatMap Token.expand)) {r : Counted Basic} (hr : 0 < r.count)
    {c d : Config} {io jo : Streams} (h : Abreast ts c io d jo) (ht : ts[d.pc]? = some (.op r)) :
    Covers step (Abreast ts) (Regrouped ts) c io ((Grouped.act r d).perform jo) := by
  obtain ⟨i, t⟩ := c
  obtain ⟨j, u⟩ := d
  obtain ⟨hpc, htape, hbytes⟩ := h
  cases hpc
  cases htape
  have hcommands : ∀ m, m < r.count → (ts.flatMap Token.expand)[firstCommand ts j + m]? = some (.op r.op) := by
    intro m hm
    have hexpand : m < (Token.expand (.op r)).length := by simpa [Token.expand] using hm
    rw [getElem?_firstCommand ht hexpand, Token.expand, List.getElem?_replicate, if_pos hm]
  have hspans := hf.spans hcommands j t io
  have hsame := Grouped.act_sameBytes (fun _ => hr) ⟨j, t⟩ hbytes
  generalize (Idiomatic.act (.counted r.op r.count) ⟨j, t⟩).perform io = p at hspans hsame
  generalize (Grouped.act r ⟨j, t⟩).perform jo = q at hsame
  cases hspans with
  | resume hreaches =>
    cases hsame with
    | resume hbytes' =>
      -- at least one command is counted, so that the other engine gets on
      refine .resume (hreaches.advances ?_) ⟨?_, rfl, hbytes'⟩
      · intro heq
        have hpc := congrArg Config.pc heq
        simp only at hpc
        omega
      · rw [firstCommand_succ ht, Token.expand, List.length_replicate]
  | halt hends hio hverdict =>
    cases hsame with
    | halt hbytes' =>
      refine .halt hends ⟨hio ▸ hbytes', hverdict.mono ?_⟩
      intro n k hn
      obtain ⟨hge, hlt, rfl⟩ := hn
      exact ⟨r, ht, hge, hlt⟩

theorem covers_bracket (hf : Follows step Basic.act (ts.flatMap Token.expand)) {i j : Nat} (hp : Partners ts i j)
    {c d : Config} {io jo : Streams} (h : Abreast ts c io d jo) (hd : d.pc = i ∨ d.pc = j) :
    Covers step (Abreast ts) (Regrouped ts) c io (.resume ⟨if d.tape.current = 0 then j + 1 else i + 1, d.tape⟩ jo) := by
  have hstep := hf.step_bracket hp.expand (k := c.pc) (by rw [h.pc]; exact hd.imp (congrArg _) (congrArg _)) c.tape io
  refine .resume (.of_resume hstep) ⟨?_, h.tape, h.bytes⟩
  have hnext : ∀ {k b}, ts[k]? = some (.bracket b) → firstCommand ts (k + 1) = firstCommand ts k + 1 :=
    fun hk => firstCommand_succ hk
  rw [h.tape]
  split
  · exact (hnext hp.2.2.1).symm
  · exact (hnext hp.2.1).symm

theorem simulates_grouped (hb : Balanced ts) (hcount : ∀ r, .op r ∈ ts → 0 < r.count)
    (hf : Follows step Basic.act (ts.flatMap Token.expand)) (hf' : Follows step' Grouped.act ts) :
    Simulates step step' (Abreast ts) (Regrouped ts) := by
  intro c io d jo h
  cases ht : ts[d.pc]? with
  | none =>
    have hpast := List.getElem?_eq_none_iff.mp ht
    have hc : step c = .halt c .done := hf.past (by rw [h.pc, firstCommand_of_length_le hpast])
    rw [hf'.past hpast]
    exact .halt (.of_halt (congrArg (Action.perform · io) hc)) ⟨h.bytes, .same nofun⟩
  | some t =>
    cases t with
    | op r =>
      rw [hf'.op ht]
      exact covers_counted hf (hcount r (List.mem_of_getElem? ht)) h ht
    | bracket b =>
      cases b with
      | opening =>
        obtain ⟨j, hp⟩ := (hb.partnered ht).of_opening ht
        have hjump := hf'.step_bracket hp (.inl rfl) d.tape jo
        rw [hjump]
        exact covers_bracket hf hp h (.inl rfl)
      | closing =>
        obtain ⟨i, hp⟩ := (hb.partnered ht).of_closing ht
        have hjump := hf'.step_bracket hp (.inr rfl) d.tape jo
        rw [hjump]
        exact covers_bracket hf hp h (.inr rfl)

end Machines

/-- Run-length encoding changes only how flushes are grouped and how instructions are numbered. -/
theorem grouped_finishes_iff_tabled {text : String} (hb : Balanced (Source.commands text)) {target : Target}
    {io : Streams} (hflush : io.faults.flushFail = none) :
    ((∃ y, Engine.grouped.Finishes target text io y) ↔ ∃ x, Engine.tabled.Finishes target text io x) ∧
      ∀ x y, Engine.tabled.Finishes target text io x → Engine.grouped.Finishes target text io y →
        Regrouped (foldRuns (Source.commands text)) x y := by
  have hb' := Block.balanced_foldRuns hb
  obtain ⟨step, hprepare, hf⟩ := Engine.prepare_tabled target hb
  rw [← flatMap_expand_foldRuns (Source.commands text)] at hf
  obtain ⟨q, hq⟩ := link_of_balanced Counted.count hb'
  have hprepare' : Engine.grouped.prepare target text = .ok (Grouped.step q) := by
    simp only [Engine.prepare, Engine.load, Grouped.ofCommands, hq]
    rfl
  have hcount : ∀ r, .op r ∈ foldRuns (Source.commands text) → 0 < r.count := by
    obtain ⟨b, hbt⟩ := Block.exists_tokens_eq hb
    intro r hr
    rw [← hbt, ← Block.tokens_fold] at hr
    exact (Block.fold_bounds hr).1
  have hsim := simulates_grouped hb' hcount hf (Follows.code (links_of_link hq))
  have hstart : Abreast (foldRuns (Source.commands text)) (.start .blank) io (.start .blank) io :=
    ⟨rfl, rfl, .of_flushFail hflush⟩
  simp only [Engine.finishes_iff hprepare, Engine.finishes_iff hprepare']
  exact hsim.ends_iff hstart

/-- The second of three moves to the left is refused: command 10, which instruction 7 counts. -/
theorem grouped_finishes_iff_tabled_left : ∃ x y, Engine.tabled.Finishes .standard ",,>..+[-]<<<" (.start [1, 2] {}) x ∧
    Engine.grouped.Finishes .standard ",,>..+[-]<<<" (.start [1, 2] {}) y ∧
    Regrouped (foldRuns (Source.commands ",,>..+[-]<<<")) x y ∧
    x.verdict = .failed (.outOfBounds (some 10)) ∧ y.verdict = .failed (.outOfBounds (some 7)) := by
  have htabled : ∃ x, Engine.tabled.Finishes .standard ",,>..+[-]<<<" (.start [1, 2] {}) x ∧
      x.verdict = .failed (.outOfBounds (some 10)) := ⟨_, ⟨20, rfl⟩, rfl⟩
  have hgrouped : ∃ y, Engine.grouped.Finishes .standard ",,>..+[-]<<<" (.start [1, 2] {}) y ∧
      y.verdict = .failed (.outOfBounds (some 7)) := ⟨_, ⟨20, rfl⟩, rfl⟩
  obtain ⟨x, hx, hxv⟩ := htabled
  obtain ⟨y, hy, hyv⟩ := hgrouped
  have hboth := @grouped_finishes_iff_tabled ",,>..+[-]<<<" (by decide) .standard (.start [1, 2] {}) rfl
  exact ⟨x, y, hx, hy, hboth.2 x y hx hy, hxv, hyv⟩

end TapeMachine
