import TapeMachine.Proofs.Link
import TapeMachine.Proofs.Meaning

namespace TapeMachine

open Meaning Block

variable {α : Type} {step : Step} {act : α → Config → Action} {ts : List (Token α)} {w : Watch α}

/-- The machine runs the tokens: operations do `act`, and brackets jump to their partners. -/
structure Follows (step : Step) (act : α → Config → Action) (ts : List (Token α)) : Prop where
  past : ∀ {c : Config}, ts.length ≤ c.pc → step c = .halt c .done
  op : ∀ {c : Config} {a : α}, ts[c.pc]? = some (.op a) → step c = act a c
  opening : ∀ {c : Config} {j : Nat}, Partners ts c.pc j →
    step c = .resume ⟨if c.tape.current = 0 then j + 1 else c.pc + 1, c.tape⟩
  closing : ∀ {c : Config} {i : Nat}, Partners ts i c.pc →
    step c = .resume ⟨if c.tape.current = 0 then c.pc + 1 else i + 1, c.tape⟩

def Local (act : α → Config → Action) : Prop :=
  ∀ a c io c' io', (act a c).perform io = .resume c' io' → c'.pc = c.pc ∨ c'.pc = c.pc + 1

def Watched (ts : List (Token α)) (w : Watch α) (c : Config) : Prop :=
  (∃ a, ts[c.pc]? = some (.op a) ∧ w.op a c.tape) ∨
    ∃ body post, ts.drop c.pc = .opening :: (body ++ .closing :: post) ∧ Balanced body ∧
      w.loop body c.tape

theorem watched_op {c : Config} {a : α} (h : ts[c.pc]? = some (.op a)) :
    Watched ts w c ↔ w.op a c.tape := by
  constructor
  · intro h
    rcases h with ⟨a', ha', hw⟩ | ⟨body, post, hd, -, -⟩
    · cases ha'.symm.trans h
      exact hw
    · cases (getElem?_of_drop_eq_cons hd).1.symm.trans h
  · exact fun hw => .inl ⟨a, h, hw⟩

theorem watched_opening {c : Config} {body post : List (Token α)}
    (h : ts.drop c.pc = .opening :: (body ++ .closing :: post)) (hb : Balanced body) :
    Watched ts w c ↔ w.loop body c.tape := by
  constructor
  · intro h
    rcases h with ⟨a, ha, -⟩ | ⟨body', post', h', hb', hw⟩
    · cases (getElem?_of_drop_eq_cons h).1.symm.trans ha
    · obtain ⟨rfl, -⟩ := hb.append_closing_inj hb' (List.cons.inj (h.symm.trans h')).2
      exact hw
  · exact fun hw => .inr ⟨body, post, h, hb, hw⟩

theorem not_watched_closing {c : Config} (h : ts[c.pc]? = some .closing) : ¬ Watched ts w c := by
  intro h
  rcases h with ⟨a, ha, -⟩ | ⟨body, post, hd, -, -⟩
  · cases ha.symm.trans h
  · cases (getElem?_of_drop_eq_cons hd).1.symm.trans h

/-- Left by the machine's run from index `i` after at most `n` instructions. -/
def ArrivesIn (step : Step) (seen : Config → Prop) (n i : Nat) : Meaning := fun r o =>
  ∃ x, o = .left x ∧ Shows step seen n ⟨i, r.tape⟩ r.io x

theorem ArrivesIn.succ {seen : Config → Prop} {n i : Nat} {r : Runtime} {o : Passage}
    (h : ArrivesIn step seen n i r o) : ArrivesIn step seen (n + 1) i r o := by
  obtain ⟨x, rfl, hn⟩ := h
  exact ⟨x, rfl, hn.succ⟩

def Arrives (step : Step) (seen : Config → Prop) (i : Nat) : Meaning := fun r o =>
  ∃ n, ArrivesIn step seen n i r o

namespace Arrives

variable {seen : Config → Prop} {i : Nat} {r : Runtime} {o : Passage}

theorem met (h : seen ⟨i, r.tape⟩) : Arrives step seen i r (.left (.met ⟨i, r.tape⟩ r.io)) :=
  ⟨0, _, rfl, .met h⟩

theorem halt {c : Config} {v : Verdict} {io : Streams}
    (h : (step ⟨i, r.tape⟩).perform r.io = .halt c v io) :
    Arrives step seen i r (.left (.ended ⟨v, c, io⟩)) :=
  ⟨0, _, rfl, .ended h⟩

theorem resume {j : Nat} {t : Tape} {io : Streams}
    (h : (step ⟨i, r.tape⟩).perform r.io = .resume ⟨j, t⟩ io)
    (ho : Arrives step seen j ⟨t, io⟩ o) : Arrives step seen i r o := by
  obtain ⟨n, x, rfl, hn⟩ := ho
  exact ⟨n + 1, x, rfl, .next h hn⟩

end Arrives

namespace Follows

theorem step_bracket (hf : Follows step act ts) {i j : Nat} (hp : Partners ts i j) {k : Nat}
    (hk : k = i ∨ k = j) (t : Tape) (io : Streams) :
    (step ⟨k, t⟩).perform io = .resume ⟨if t.current = 0 then j + 1 else i + 1, t⟩ io := by
  rcases hk with rfl | rfl
  · rw [hf.opening (c := ⟨_, t⟩) hp]; rfl
  · rw [hf.closing (c := ⟨_, t⟩) hp]; rfl

section Forward

theorem arrives_of_instruction (hf : Follows step act ts) {i : Nat} {a : α}
    (ha : ts[i]? = some (.op a)) {r : Runtime} {p o : Passage}
    (h : instruction (act a) (w.op a) i r p)
    (ho : followed p (Arrives step (Watched ts w) (i + 1)) o) :
    Arrives step (Watched ts w) i r o := by
  have hstep : ∀ t, step ⟨i, t⟩ = act a ⟨i, t⟩ := fun t => hf.op (c := ⟨i, t⟩) ha
  induction h with
  | @met r hm =>
    cases ho
    exact .met ((watched_op (c := ⟨i, r.tape⟩) ha).mpr hm)
  | pass hp => exact .resume (hstep _ ▸ hp) ho
  | leave hp =>
    cases ho
    exact .halt (hstep _ ▸ hp)
  | again hp _ ih => exact .resume (hstep _ ▸ hp) (ih ho)

theorem arrives_of_rounds (hf : Follows step act ts) {i j : Nat} (hij : Partners ts i j)
    {A : Meaning} (hA : ∀ {r o}, seq A (Arrives step (Watched ts w) j) r o →
      Arrives step (Watched ts w) (i + 1) r o) {r : Runtime} {p o : Passage} (h : rounds A r p)
    (ho : followed p (Arrives step (Watched ts w) (j + 1)) o) {k : Nat} (hk : k = i ∨ k = j) :
    Arrives step (Watched ts w) k r o := by
  induction h generalizing k with
  | @done r hz =>
    have hs := hf.step_bracket hij hk r.tape r.io
    rw [if_pos hz] at hs
    exact .resume hs ho
  | @leave r x hn ha =>
    cases ho
    have hs := hf.step_bracket hij hk r.tape r.io
    rw [if_neg hn] at hs
    exact .resume hs (hA (.leave ha))
  | @again r r' o hn ha _ ih =>
    have hs := hf.step_bracket hij hk r.tape r.io
    rw [if_neg hn] at hs
    exact .resume hs (hA (.pass ha (ih ho (.inr rfl))))

/-- What a block means, followed by what the machine does behind the block, the machine does on the block. -/
theorem arrives_of_seq (hf : Follows step act ts) (b : Block α) {i : Nat} {post : List (Token α)}
    (hts : ts.drop i = b.tokens ++ post) {r : Runtime} {o : Passage}
    (h : seq (b.meaning act w i) (Arrives step (Watched ts w) (i + b.length)) r o) :
    Arrives step (Watched ts w) i r o := by
  induction b generalizing i post r o with
  | nil =>
    rw [meaning, skip_seq] at h
    exact h
  | op a b ih =>
    obtain ⟨ha, hrest⟩ := getElem?_of_drop_eq_cons hts
    rw [meaning, Meaning.seq_assoc, length, Nat.add_comm b.length, ← Nat.add_assoc] at h
    obtain ⟨p, hi, hp⟩ := seq_iff.mp h
    refine hf.arrives_of_instruction ha hi ?_
    cases p with
    | passed r' => exact ih hrest hp
    | left x => exact hp
  | loop b c ihb ihc =>
    simp only [tokens, List.cons_append, List.append_assoc] at hts
    obtain ⟨hbody, hrest, hij⟩ := loop_of_drop b.balanced_tokens hts
    rw [length_tokens] at hrest hij
    have hlen : i + (loop b c).length = i + b.length + 2 + c.length := by
      simp only [length]
      omega
    rw [meaning, Meaning.seq_assoc, hlen] at h
    have hA : ∀ {r o}, seq (b.meaning act w (i + 1))
        (Arrives step (Watched ts w) (i + b.length + 1)) r o →
        Arrives step (Watched ts w) (i + 1) r o := by
      intro r o h
      rw [Nat.add_right_comm] at h
      exact ihb hbody h
    obtain ⟨p, hi, hp⟩ := seq_iff.mp h
    have hp' : followed p (Arrives step (Watched ts w) (i + b.length + 1 + 1)) o := by
      cases p with
      | passed r' => exact ihc hrest hp
      | left x => exact hp
    cases hi with
    | met hm =>
      cases hp
      exact .met ((watched_opening (c := ⟨i, r.tape⟩) hts b.balanced_tokens).mpr hm)
    | run hr => exact hf.arrives_of_rounds hij hA hr hp' (.inl rfl)

end Forward

section Backward

/-- What the machine does on an operation, the instruction means. The induction is on the number of
instructions, since an instruction may go on with itself. -/
theorem seq_instruction_of_shows (hf : Follows step act ts) (hl : Local act) {i : Nat} {a : α}
    (ha : ts[i]? = some (.op a)) {n : Nat} {r : Runtime} {x : Exit}
    (h : Shows step (Watched ts w) n ⟨i, r.tape⟩ r.io x) :
    seq (instruction (act a) (w.op a) i) (ArrivesIn step (Watched ts w) n (i + 1)) r (.left x) := by
  have hstep : step ⟨i, r.tape⟩ = act a ⟨i, r.tape⟩ := hf.op (c := ⟨i, r.tape⟩) ha
  induction n generalizing r with
  | zero =>
    cases h with
    | met hm => exact .leave (.met ((watched_op (c := ⟨i, r.tape⟩) ha).mp hm))
    | ended hp => exact .leave (.leave (hstep ▸ hp))
  | succ n ih =>
    cases h with
    | met hm => exact .leave (.met ((watched_op (c := ⟨i, r.tape⟩) ha).mp hm))
    | ended hp => exact .leave (.leave (hstep ▸ hp))
    | @next _ _ c' _ io' _ hp hn =>
      rw [hstep] at hp
      obtain ⟨pc, t⟩ := c'
      rcases hl _ _ _ _ _ hp with hpc | hpc <;> cases hpc
      · have hagain := ih (r := ⟨t, io'⟩) hn (hf.op (c := ⟨i, t⟩) ha)
        obtain ⟨p, hi, hrest⟩ := seq_iff.mp hagain
        cases p with
        | passed r' => exact .pass (.again hp hi) hrest.succ
        | left y =>
          cases hrest
          exact .leave (.again hp hi)
      · exact .pass (.pass hp) ⟨x, rfl, hn.succ⟩

theorem seq_rounds_of_shows (hf : Follows step act ts) {i j : Nat} (hij : Partners ts i j)
    {A : Meaning} (hA : ∀ {n r x}, Shows step (Watched ts w) n ⟨i + 1, r.tape⟩ r.io x →
      seq A (ArrivesIn step (Watched ts w) n j) r (.left x)) {k n : Nat} (hk : k = i ∨ k = j)
    {r : Runtime} {x : Exit} (h : Shows step (Watched ts w) n ⟨k, r.tape⟩ r.io x) :
    Watched ts w ⟨k, r.tape⟩ ∧ x = .met ⟨k, r.tape⟩ r.io ∨
      seq (rounds A) (ArrivesIn step (Watched ts w) n (j + 1)) r (.left x) := by
  induction n using Nat.strongRecOn generalizing k r with
  | ind n ih =>
    have hstep := hf.step_bracket hij hk r.tape r.io
    cases h with
    | met hm => exact .inl ⟨hm, rfl⟩
    | ended hp => cases hstep.symm.trans hp
    | @next n _ c' _ _ _ hp hn =>
      cases hstep.symm.trans hp
      right
      by_cases hz : r.tape.current = 0
      · rw [if_pos hz] at hn
        exact .pass (.done hz) ⟨x, rfl, hn.succ⟩
      · rw [if_neg hz] at hn
        obtain ⟨p, ha, hp⟩ := seq_iff.mp (hA hn)
        cases p with
        | left y =>
          cases hp
          exact .leave (.leave hz ha)
        | passed r' =>
          obtain ⟨y, hy, hn'⟩ := hp
          cases hy
          have hclose : ¬ Watched ts w ⟨j, r'.tape⟩ := not_watched_closing hij.2.2.1
          have hround := ih n (Nat.lt_succ_self n) (.inr rfl) hn'
          obtain ⟨q, hr, hq⟩ := seq_iff.mp (hround.resolve_left fun h => hclose h.1)
          cases q with
          | passed r'' => exact .pass (.again hz ha hr) hq.succ
          | left y =>
            cases hq
            exact .leave (.again hz ha hr)

/-- What the machine does on a block, the block means, followed by what the machine does behind the block. -/
theorem seq_of_shows (hf : Follows step act ts) (hl : Local act) (b : Block α) {i n : Nat}
    {post : List (Token α)} (hts : ts.drop i = b.tokens ++ post) {r : Runtime} {x : Exit}
    (h : Shows step (Watched ts w) n ⟨i, r.tape⟩ r.io x) :
    seq (b.meaning act w i) (ArrivesIn step (Watched ts w) n (i + b.length)) r (.left x) := by
  induction b generalizing i n post r x with
  | nil =>
    rw [meaning, skip_seq]
    exact ⟨x, rfl, h⟩
  | op a b ih =>
    obtain ⟨ha, hrest⟩ := getElem?_of_drop_eq_cons hts
    rw [meaning, Meaning.seq_assoc, length, Nat.add_comm b.length, ← Nat.add_assoc]
    refine (hf.seq_instruction_of_shows hl ha h).imp_right ?_
    intro r' o h
    obtain ⟨y, rfl, hn⟩ := h
    exact ih hrest hn
  | loop b c ihb ihc =>
    simp only [tokens, List.cons_append, List.append_assoc] at hts
    obtain ⟨hbody, hrest, hij⟩ := loop_of_drop b.balanced_tokens hts
    rw [length_tokens] at hrest hij
    have hlen : i + (loop b c).length = i + b.length + 2 + c.length := by
      simp only [length]
      omega
    rw [meaning, Meaning.seq_assoc, hlen]
    have hA : ∀ {n r x}, Shows step (Watched ts w) n ⟨i + 1, r.tape⟩ r.io x →
        seq (b.meaning act w (i + 1)) (ArrivesIn step (Watched ts w) n (i + b.length + 1)) r (.left x) := by
      intro n r x h
      rw [Nat.add_right_comm]
      exact ihb hbody h
    rcases hf.seq_rounds_of_shows hij hA (.inl rfl) h with ⟨hm, rfl⟩ | hr
    · exact .leave (.met ((watched_opening (c := ⟨i, r.tape⟩) hts b.balanced_tokens).mp hm))
    · obtain ⟨p, hr, hp⟩ := seq_iff.mp hr
      cases p with
      | passed r' =>
        obtain ⟨y, hy, hn⟩ := hp
        cases hy
        exact .pass (.run hr) (ihc hrest hn)
      | left y =>
        cases hp
        exact .leave (.run hr)

end Backward

/-- The run of a machine that follows a program is left exactly as the program may be left. -/
theorem shows_iff_leaves {b : Block α} (hf : Follows step act b.tokens) (hl : Local act) {t : Tape}
    {io : Streams} {x : Exit} :
    (∃ n, Shows step (Watched b.tokens w) n ⟨0, t⟩ io x) ↔ b.Leaves act w ⟨t, io⟩ x := by
  have hts : b.tokens.drop 0 = b.tokens ++ [] := (List.append_nil _).symm
  have hpast : ∀ t, step ⟨b.length, t⟩ = .halt ⟨b.length, t⟩ .done :=
    fun t => hf.past (Nat.le_of_eq b.length_tokens)
  have hend : b.tokens[b.length]? = none := List.getElem?_eq_none (Nat.le_of_eq b.length_tokens)
  constructor
  · intro h
    obtain ⟨n, hn⟩ := h
    have hseq := hf.seq_of_shows (r := ⟨t, io⟩) hl b hts hn
    rw [Nat.zero_add] at hseq
    refine hseq.imp_right ?_
    intro r o h
    obtain ⟨y, rfl, hy⟩ := h
    cases hy with
    | met hm =>
      rcases hm with ⟨a, ha, -⟩ | ⟨body, post, hd, -, -⟩
      · cases hend.symm.trans ha
      · cases hend.symm.trans (getElem?_of_drop_eq_cons hd).1
    | ended hp =>
      rw [hpast] at hp
      cases hp
      rfl
    | next hp =>
      rw [hpast] at hp
      cases hp
  · intro h
    have harr : Arrives step (Watched b.tokens w) 0 ⟨t, io⟩ (.left x) := by
      refine hf.arrives_of_seq b hts (h.imp_right ?_)
      rintro r o rfl
      rw [Nat.zero_add]
      exact .halt (by rw [hpast]; rfl)
    obtain ⟨n, y, hy, hn⟩ := harr
    cases hy
    exact ⟨n, hn⟩

theorem ends_iff_leaves {b : Block α} (hf : Follows step act b.tokens) (hl : Local act) (w : Watch α)
    {t : Tape} {io : Streams} {e : Ended} :
    Ends step ⟨0, t⟩ io e ↔ b.Leaves act w ⟨t, io⟩ (.ended e) :=
  ends_iff_shows.trans (hf.shows_iff_leaves hl)

theorem reaches_iff_leaves {b : Block α} (hf : Follows step act b.tokens) (hl : Local act) (w : Watch α)
    {t : Tape} {c : Config} {io io' : Streams} :
    Reaches step ⟨0, t⟩ io c io' ∧ Watched b.tokens w c ↔ b.Leaves act w ⟨t, io⟩ (.met c io') :=
  reaches_iff_shows.trans (hf.shows_iff_leaves hl)

end Follows

end TapeMachine
