import TapeMachine.Proofs.Lowering
import TapeMachine.Proofs.Progress
import TapeMachine.Proofs.Session

namespace TapeMachine

namespace Tape

variable {t u : Tape} {d : Direction} {n : Nat}

/-- The cell `k` strides away is on the tape and zero. -/
def ZeroAt (t : Tape) (d : Direction) (n k : Nat) : Prop :=
  ∃ i, t.cellAt? d (k * n) = some i ∧ t.cells.get i = 0

theorem zeroAt_iff {k : Nat} : t.ZeroAt d n k ↔ ∃ u, t.move? d (k * n) = some u ∧ u.current = 0 := by
  constructor
  · rintro ⟨i, hi, hz⟩
    exact ⟨⟨t.cells, i⟩, move?_eq_some_iff.mpr ⟨i, hi, rfl⟩, hz⟩
  · rintro ⟨u, hu, hz⟩
    obtain ⟨i, hi, rfl⟩ := move?_eq_some_iff.mp hu
    exact ⟨i, hi, hz⟩

theorem zeroAt_zero : t.ZeroAt d n 0 ↔ t.current = 0 := by
  rw [zeroAt_iff, Nat.zero_mul, move?_zero]
  simp

theorem zeroAt_succ {k : Nat} (h : t.move? d n = some u) : t.ZeroAt d n (k + 1) ↔ u.ZeroAt d n k := by
  rw [zeroAt_iff, zeroAt_iff, Nat.succ_mul, Nat.add_comm, move?_add, h]
  rfl

theorem not_zeroAt_succ {k : Nat} (h : t.move? d n = none) : ¬ t.ZeroAt d n (k + 1) := by
  rw [zeroAt_iff, Nat.succ_mul, Nat.add_comm, move?_add, h]
  simp

/-- A scan as a loop of its own: it moves while the current cell is not zero, and a refused move is its last one. What it
comes to after this number of moves is the tape it found, or the one it could not leave. -/
inductive Scans (d : Direction) (n : Nat) : Nat → Tape → Except Tape Tape → Prop where
  | done {t : Tape} : t.current = 0 → Scans d n 0 t (.ok t)
  | move {m : Nat} {t u : Tape} {r : Except Tape Tape} : t.current ≠ 0 → t.move? d n = some u →
      Scans d n m u r → Scans d n (m + 1) t r
  | off {t : Tape} : t.current ≠ 0 → t.move? d n = none → Scans d n 1 t (.error t)

/-- Scans one after the other, until one of them is refused, with the number of all their moves. -/
inductive ScansEach (d : Direction) (n : Nat) : Nat → Nat → Tape → Except Tape Tape → Prop where
  | none (t : Tape) : ScansEach d n 0 0 t (.ok t)
  | found {count m k : Nat} {t u : Tape} {r : Except Tape Tape} : Scans d n m t (.ok u) →
      ScansEach d n count k u r → ScansEach d n (count + 1) (m + k) t r
  | off {count m : Nat} {t u : Tape} : Scans d n m t (.error u) → ScansEach d n (count + 1) m t (.error u)

namespace Scans

variable {m : Nat} {r : Except Tape Tape}

theorem exists_of_pos (hn : 0 < n) (t : Tape) : ∃ m r, Scans d n m t r := by
  induction hroom : t.room d using Nat.strongRecOn generalizing t with
  | ind room ih =>
    by_cases hz : t.current = 0
    · exact ⟨0, .ok t, .done hz⟩
    · cases hm : t.move? d n with
      | none => exact ⟨1, .error t, .off hz hm⟩
      | some u =>
        obtain ⟨m, r, hr⟩ := ih _ (hroom ▸ room_lt_of_move? hn hm) u rfl
        exact ⟨m + 1, r, .move hz hm hr⟩

/-- Every move but a refused one leaves less room. -/
theorem add_room_le (hn : 0 < n) (h : Scans d n m t r) :
    (∀ u, r = .ok u → m + u.room d ≤ t.room d) ∧ ∀ u, r = .error u → m + u.room d ≤ t.room d + 1 := by
  induction h with
  | done =>
    refine ⟨fun u hu => ?_, nofun⟩
    cases hu
    omega
  | move _ hm _ ih =>
    have hlt := room_lt_of_move? hn hm
    refine ⟨fun u hu => ?_, fun u hu => ?_⟩
    · have hle := ih.1 u hu
      omega
    · have hle := ih.2 u hu
      omega
  | off =>
    refine ⟨nofun, fun u hu => ?_⟩
    cases hu
    omega

theorem lt_size (hn : 0 < n) (h : Scans d n m t (.ok u)) : m < size := by
  have hle := (h.add_room_le hn).1 u rfl
  have ht := t.head.isLt
  have hu := u.head.isLt
  cases d with
  | forward =>
    simp only [room, size] at *
    omega
  | backward =>
    simp only [room, size] at *
    omega

theorem le_size (hn : 0 < n) (h : Scans d n m t (.error u)) : m ≤ size := by
  have hle := (h.add_room_le hn).2 u rfl
  have ht := t.head.isLt
  have hu := u.head.isLt
  cases d with
  | forward =>
    simp only [room, size] at *
    omega
  | backward =>
    simp only [room, size] at *
    omega

theorem unique (h : Scans d n m t r) {m' : Nat} {r' : Except Tape Tape} (h' : Scans d n m' t r') :
    m = m' ∧ r = r' := by
  induction h generalizing m' r' with
  | done hz =>
    cases h' with
    | done => exact ⟨rfl, rfl⟩
    | move hn => exact absurd hz hn
    | off hn => exact absurd hz hn
  | move hn hm _ ih =>
    cases h' with
    | done hz => exact absurd hz hn
    | move _ hm' h' =>
      cases hm.symm.trans hm'
      obtain ⟨rfl, rfl⟩ := ih h'
      exact ⟨rfl, rfl⟩
    | off _ hm' => cases hm.symm.trans hm'
  | off hn hm =>
    cases h' with
    | done hz => exact absurd hz hn
    | move _ hm' => cases hm.symm.trans hm'
    | off => exact ⟨rfl, rfl⟩

theorem cells_of_error (h : Scans d n m t (.error u)) : u.cells = t.cells := by
  generalize hr : Except.error u = r at h
  induction h with
  | done => cases hr
  | move _ hm _ ih => exact (ih hr).trans (SameCells.of_move? hm).symm
  | off =>
    cases hr
    rfl

/-- What is found is the first zero cell in the stride. -/
theorem isFirst (h : Scans d n m t (.ok u)) : IsFirst (t.ZeroAt d n) m ∧ t.move? d (m * n) = some u := by
  generalize hr : Except.ok u = r at h
  induction h with
  | done hz =>
    cases hr
    exact ⟨⟨zeroAt_zero.mpr hz, fun k _ => Nat.zero_le k⟩, by rw [Nat.zero_mul, move?_zero]⟩
  | @move m t v _ hn hm _ ih =>
    obtain ⟨⟨hzero, hfirst⟩, hmove⟩ := ih hr
    refine ⟨⟨(zeroAt_succ hm).mpr hzero, fun k hk => ?_⟩, ?_⟩
    · cases k with
      | zero => exact absurd (zeroAt_zero.mp hk) hn
      | succ k => exact Nat.succ_le_succ (hfirst k ((zeroAt_succ hm).mp hk))
    · rw [Nat.succ_mul, Nat.add_comm, move?_add, hm]
      exact hmove
  | off => cases hr

theorem not_zeroAt (h : Scans d n m t (.error u)) (k : Nat) : ¬ t.ZeroAt d n k := by
  generalize hr : Except.error u = r at h
  induction h generalizing k with
  | done => cases hr
  | move hn hm _ ih =>
    cases k with
    | zero => exact fun hz => hn (zeroAt_zero.mp hz)
    | succ k => exact fun hz => ih k hr ((zeroAt_succ hm).mp hz)
  | off hn hm =>
    cases k with
    | zero => exact fun hz => hn (zeroAt_zero.mp hz)
    | succ k => exact not_zeroAt_succ hm

theorem current_eq_zero (h : Scans d n m t (.ok u)) : u.current = 0 := by
  generalize hr : Except.ok u = r at h
  induction h with
  | done hz =>
    cases hr
    exact hz
  | move _ _ _ ih => exact ih hr
  | off => cases hr

theorem each_of_zero (hz : t.current = 0) (count : Nat) : ScansEach d n count 0 t (.ok t) := by
  induction count with
  | zero => exact .none t
  | succ count ih => exact .found (.done hz) ih

theorem each (h : Scans d n m t r) {count : Nat} (hcount : 0 < count) : ScansEach d n count m t r := by
  obtain ⟨count, rfl⟩ := Nat.exists_eq_succ_of_ne_zero (Nat.ne_of_gt hcount)
  cases r with
  | ok u => exact .found h (each_of_zero h.current_eq_zero count)
  | error u => exact .off h

end Scans

theorem ScansEach.unique {count m m' : Nat} {r r' : Except Tape Tape} (h : ScansEach d n count m t r)
    (h' : ScansEach d n count m' t r') : m = m' ∧ r = r' := by
  induction h generalizing m' r' with
  | none =>
    cases h'
    exact ⟨rfl, rfl⟩
  | found hs _ ih =>
    cases h' with
    | found hs' h' =>
      obtain ⟨rfl, hu⟩ := hs.unique hs'
      cases hu
      obtain ⟨rfl, rfl⟩ := ih h'
      exact ⟨rfl, rfl⟩
    | off hs' => cases (hs.unique hs').2
  | off hs =>
    cases h' with
    | found hs' => cases (hs.unique hs').2
    | off hs' =>
      obtain ⟨rfl, hu⟩ := hs.unique hs'
      exact ⟨rfl, hu⟩

/-- What scanning several times comes to is what the first of the scans comes to. -/
theorem ScansEach.scans {count m : Nat} {r : Except Tape Tape} (h : ScansEach d n (count + 1) m t r) : Scans d n m t r := by
  cases h with
  | off hs => exact hs
  | @found _ m k _ u _ hs h =>
    obtain ⟨rfl, rfl⟩ := h.unique (Scans.each_of_zero hs.current_eq_zero count)
    exact hs

/-- A scan on a tape comes to the first zero cell in its stride, or off the tape if there is none. It makes at most 30000
moves and changes no cell. What it comes to is told by two predicates of the number of moves and the tape. -/
structure Seeks (t : Tape) (d : Direction) (n : Nat) (found off : Nat → Tape → Prop) : Prop where
  found : ∀ {k : Nat} {i : Fin 30000}, IsFirst (t.ZeroAt d n) k → t.cellAt? d (k * n) = some i →
    k < size ∧ found k ⟨t.cells, i⟩
  off : (∀ k, ¬ t.ZeroAt d n k) → ∃ m u, m ≤ size ∧ u.cells = t.cells ∧ off m u

theorem Scans.seeks (hn : 0 < n) {found off : Nat → Tape → Prop}
    (hfound : ∀ {m u}, Scans d n m t (.ok u) → found m u) (hoff : ∀ {m u}, Scans d n m t (.error u) → off m u) :
    t.Seeks d n found off := by
  obtain ⟨m, r, h⟩ := exists_of_pos hn t
  cases r with
  | ok u =>
    obtain ⟨hfirst, hmove⟩ := h.isFirst
    constructor
    · intro k i hk hi
      obtain rfl : k = m := Nat.le_antisymm (hk.2 m hfirst.1) (hfirst.2 k hk.1)
      have hu := hmove.symm.trans (move?_eq_some_iff.mpr ⟨i, hi, rfl⟩)
      cases hu
      exact ⟨h.lt_size hn, hfound h⟩
    · exact fun hnone => absurd hfirst.1 (hnone m)
  | error u =>
    constructor
    · exact fun hk _ => absurd hk.1 (h.not_zeroAt _)
    · exact fun _ => ⟨m, u, h.le_size hn, h.cells_of_error, hoff h⟩

end Tape

def ScansAt (step : Step) (pc : Nat) (d : Direction) (n : Nat) (f : Failure) : Prop :=
  ∀ t, step ⟨pc, t⟩ = (⟨pc, t⟩ : Config).scanBy d n f

section Machine

variable {step : Step} {pc : Nat} {d : Direction} {n : Nat} {f : Failure} (hstep : ScansAt step pc d n f)

include hstep

theorem ScansAt.perform (t : Tape) (io : Streams) : (step ⟨pc, t⟩).perform io =
    if t.current = 0 then .resume ⟨pc + 1, t⟩ io
    else match t.move? d n with
      | some u => .resume ⟨pc, u⟩ io
      | none => .halt ⟨pc, t⟩ (.failed f) io := by
  rw [hstep, Config.scanBy]
  split
  · rfl
  · cases t.move? d n <;> rfl

theorem ScansAt.stateAfter {m : Nat} {t u : Tape} (h : Tape.Scans d n m t (.ok u)) (io : Streams) :
    stateAfter step (m + 1) ⟨pc, t⟩ io = some (⟨pc + 1, u⟩, io) := by
  generalize hr : Except.ok u = r at h
  induction h with
  | done hz =>
    cases hr
    rw [stateAfter_succ (by rw [hstep.perform, if_pos hz])]
    rfl
  | move hn hm _ ih =>
    rw [stateAfter_succ (by rw [hstep.perform, if_neg hn, hm])]
    exact ih hr
  | off => cases hr

theorem ScansAt.runFor {m : Nat} {t u : Tape} (h : Tape.Scans d n m t (.error u)) (io : Streams) :
    runFor step m ⟨pc, t⟩ io = some ⟨.failed f, ⟨pc, u⟩, io⟩ := by
  generalize hr : Except.error u = r at h
  induction h with
  | done => cases hr
  | move hn hm _ ih =>
    rw [TapeMachine.runFor, hstep.perform, if_neg hn, hm]
    exact ih hr
  | off hn hm =>
    cases hr
    rw [TapeMachine.runFor, hstep.perform, if_neg hn, hm]

theorem ScansAt.seeks (hn : 0 < n) (t : Tape) (io : Streams) : t.Seeks d n
    (fun k u => TapeMachine.stateAfter step (k + 1) ⟨pc, t⟩ io = some (⟨pc + 1, u⟩, io))
    fun m u => TapeMachine.runFor step m ⟨pc, t⟩ io = some ⟨.failed f, ⟨pc, u⟩, io⟩ :=
  Tape.Scans.seeks hn (fun h => hstep.stateAfter h io) fun h => hstep.runFor h io

end Machine

theorem scansAt_idiomatic {p : Idiomatic.Program} {pc count : Nat} {d : Direction} {n : Nat}
    (h : p[pc]? = some (.op (.scan count d n))) (hcount : 0 < count) :
    ScansAt (Idiomatic.step p) pc d n (.outOfBounds (some pc)) := by
  obtain ⟨count, rfl⟩ := Nat.exists_eq_succ_of_ne_zero (Nat.ne_of_gt hcount)
  intro t
  simp only [Idiomatic.step, Code.step, h, Idiomatic.act_scan]
  rfl

section Repeats

variable {p : Idiomatic.Program} {pc count m : Nat} {d : Direction} {n : Nat} {t u : Tape}
  (hp : p[pc]? = some (.op (.scan count d n)))

include hp

/-- The interpreter scans as often as the instruction is counted. -/
theorem Tape.ScansEach.stateAfter (h : t.ScansEach d n count m (.ok u)) (io : Streams) :
    TapeMachine.stateAfter (Idiomatic.step p) (m + 1) ⟨pc, t⟩ io = some (⟨pc + 1, u⟩, io) := by
  cases count with
  | zero =>
    cases h
    have hstep : Idiomatic.step p ⟨pc, t⟩ = .resume ⟨pc + 1, t⟩ := by
      simp only [Idiomatic.step, Code.step, hp]
      rfl
    rw [stateAfter_succ (by rw [hstep]; rfl)]
    rfl
  | succ count => exact (scansAt_idiomatic hp count.succ_pos).stateAfter h.scans io

theorem Tape.ScansEach.runFor (h : t.ScansEach d n count m (.error u)) (io : Streams) :
    TapeMachine.runFor (Idiomatic.step p) m ⟨pc, t⟩ io = some ⟨.failed (.outOfBounds (some pc)), ⟨pc, u⟩, io⟩ := by
  cases count with
  | zero => cases h
  | succ count => exact (scansAt_idiomatic hp count.succ_pos).runFor h.scans io

end Repeats

theorem scansAt_native {code : Code Native} {pc : Nat} {d : Direction} {n : Nat}
    (h : code[pc]? = some (.op (.scan d n))) : ScansAt (Native.step code) pc d n (.outOfBounds none) := by
  intro t
  simp only [Native.step, Code.step, h]
  rfl

theorem progresses_idiomatic {o : Lowered} (h : o.op.Proper) : Progresses Idiomatic.act o := by
  match o with
  | .counted (.move d) n => exact .inl fun c => passes_moveBy c d n _
  | .counted .increment n => exact .inl fun c => passes_update c (·.add n)
  | .counted .decrement n => exact .inl fun c => passes_update c (·.sub n)
  | .counted .read n => exact .inl fun c => passes_readEach c n
  | .counted .write n => exact .inl fun c => passes_writeEach c n
  | .clear => exact .inl fun c => passes_update c (·.set 0)
  | .scan 0 _ _ => exact .inl fun c => rfl
  | .scan (_ + 1) d n => exact .inr ⟨d, n, h, fun c => ⟨_, congrFun (Idiomatic.act_scan d n _) c⟩⟩
  | .transfer 0 _ _ => exact .inl fun c => rfl
  | .transfer (_ + 1) d n =>
    refine .inl fun c => ?_
    rw [Idiomatic.act_transfer]
    exact passes_transferBy c d n _

theorem progresses_native {o : Native} (h : ∀ d n, o = .scan d n → 0 < n) : Progresses Native.act o := by
  cases o with
  | move d n => exact .inl fun c => passes_moveBy c d n _
  | add b => exact .inl fun c => passes_update c fun t => t.set (t.current + b)
  | sub b => exact .inl fun c => passes_update c fun t => t.set (t.current - b)
  | clear => exact .inl fun c => passes_update c (·.set 0)
  | read => exact .inl passes_readByte
  | write => exact .inl passes_writeByte
  | scan d n => exact .inr ⟨d, n, h d n rfl, fun c => ⟨_, rfl⟩⟩
  | transfer d n => exact .inl fun c => passes_transferBy c d n _
  | halfScan => exact .inl fun c => rfl

theorem Lowered.scan_mem_natives {o : Lowered} {d : Direction} {n : Nat} (h : .scan d n ∈ o.natives) :
    ∃ count, o = .scan count d n := by
  match o with
  | .counted (.move _) _ => simp [natives] at h
  | .counted .increment _ => simp [natives] at h
  | .counted .decrement _ => simp [natives] at h
  | .counted .read _ => simp [natives] at h
  | .counted .write _ => simp [natives] at h
  | .clear => simp [natives] at h
  | .scan count _ _ =>
    obtain ⟨rfl, rfl⟩ : d = _ ∧ n = _ := by simpa [natives] using h
    exact ⟨count, rfl⟩
  | .transfer _ _ _ => simp [natives] at h

section Source

variable {text : String} {t : Tree}

theorem exists_tight (ht : Tree.ofSource text = .ok t) :
    ∃ p, Idiomatic.ofSource text = .ok p ∧ Links t.optimise.lower p ∧ Tight p := by
  obtain ⟨p, hp, hlinks⟩ := exists_idiomatic ht
  exact ⟨p, hp, hlinks, tight_of_tokens ht (hlinks.tokens_eq t.balanced_lower_optimise)⟩

theorem exists_of_ofSource {p : Idiomatic.Program} (hp : Idiomatic.ofSource text = .ok p) : Paired p ∧ Tight p := by
  cases ht : Tree.ofSource text with
  | error u => simp [Idiomatic.ofSource, Tree.lowerSource, ht] at hp
  | ok t =>
    obtain ⟨q, hq, hlinks, htight⟩ := exists_tight ht
    cases hp.symm.trans hq
    exact ⟨hlinks.paired t.balanced_lower_optimise, htight⟩

theorem op_loweredSource {ts : List (Token Lowered)} (h : Native.loweredSource text = .ok ts) {o : Lowered}
    (ho : .op o ∈ ts) : 0 < o.count ∧ o.op.Proper := by
  obtain ⟨t, ht, rfl⟩ := Native.exists_of_loweredSource h
  obtain ⟨p, -, hlinks, htight⟩ := exists_tight ht
  obtain ⟨i, hi⟩ := List.mem_iff_getElem?.mp ho
  exact ⟨htight.count (hlinks.op hi), htight.proper (hlinks.op hi)⟩

theorem paired_of_optimised {a : Assembler} {code : Code Native} (h : Native.optimised a text = .ok code) :
    Paired code ∧ ∀ {i : Nat} {d : Direction} {n : Nat}, code[i]? = some (.op (.scan d n)) → 0 < n := by
  obtain ⟨b, hts, hlinks⟩ := Native.exists_links_of_optimised h
  have hbalanced := Block.balanced_tokens (b.bind Lowered.natives)
  refine ⟨hlinks.paired hbalanced, fun {i d n} hi => ?_⟩
  have hmem : .op (.scan d n) ∈ (b.bind Lowered.natives).tokens := by
    rw [← hlinks.tokens_eq hbalanced]
    exact List.mem_of_getElem? (by rw [Code.getElem?_tokens, hi]; rfl)
  rw [Block.tokens_bind, List.mem_flatMap] at hmem
  obtain ⟨c, hc, hscan⟩ := hmem
  cases c with
  | bracket => simp [Block.bindToken] at hscan
  | op o =>
    simp only [Block.bindToken, List.mem_map, Token.op.injEq, exists_eq_right] at hscan
    obtain ⟨count, rfl⟩ := Lowered.scan_mem_natives hscan
    exact (op_loweredSource hts hc).2

end Source

/-- A scan by at least one cell comes to the first zero cell in its stride, or off the tape, after at most 30000 moves and
without a change of any cell, whatever its count is: as a loop, as an instruction of the interpreter and as an emitted one.
All scans in the programs of source texts are such scans, and a run of such a program that never ends jumps back from
one loop again and again. -/
theorem scans_find_first_zero :
    (∀ (t : Tape) (d : Direction) (n : Nat), 0 < n →
      (∀ count, 0 < count →
        t.Seeks d n (fun k u => t.ScansEach d n count k (.ok u)) fun m u => t.ScansEach d n count m (.error u)) ∧
      (∀ count m m' r r', t.ScansEach d n count m r → t.ScansEach d n count m' r' → m = m' ∧ r = r') ∧
      (∀ (p : Idiomatic.Program) (pc count : Nat) (io : Streams), p[pc]? = some (.op (.scan count d n)) → 0 < count →
        t.Seeks d n (fun k u => stateAfter (Idiomatic.step p) (k + 1) ⟨pc, t⟩ io = some (⟨pc + 1, u⟩, io))
          fun m u => runFor (Idiomatic.step p) m ⟨pc, t⟩ io = some ⟨.failed (.outOfBounds (some pc)), ⟨pc, u⟩, io⟩) ∧
      ∀ (code : Code Native) (pc : Nat) (io : Streams), code[pc]? = some (.op (.scan d n)) →
        t.Seeks d n (fun k u => stateAfter (Native.step code) (k + 1) ⟨pc, t⟩ io = some (⟨pc + 1, u⟩, io))
          fun m u => runFor (Native.step code) m ⟨pc, t⟩ io = some ⟨.failed (.outOfBounds none), ⟨pc, u⟩, io⟩) ∧
    (∀ text p, Idiomatic.ofSource text = .ok p →
      (∀ (i count : Nat) d n, p[i]? = some (.op (.scan count d n)) → 0 < count ∧ 0 < n) ∧
      ∀ c io, Forever (Idiomatic.step p) c io → Circles (Idiomatic.step p) p c io) ∧
    (∀ text ts, Native.loweredSource text = .ok ts → ∀ count d n, .op (.scan count d n) ∈ ts → 0 < count ∧ 0 < n) ∧
    ∀ a text code, Native.optimised a text = .ok code →
      ∀ c io, Forever (Native.step code) c io → Circles (Native.step code) code c io := by
  refine ⟨fun t d n hn => ⟨?_, fun _ _ _ _ _ h h' => h.unique h', ?_, ?_⟩, ?_, ?_, ?_⟩
  · intro count hcount
    exact Tape.Scans.seeks hn (fun h => h.each hcount) fun h => h.each hcount
  · intro p pc count io hp hcount
    exact Tape.Scans.seeks hn (fun h => (h.each hcount).stateAfter hp io) fun h => (h.each hcount).runFor hp io
  · intro code pc io hcode
    exact (scansAt_native hcode).seeks hn t io
  · intro text p hp
    obtain ⟨hpaired, htight⟩ := exists_of_ofSource hp
    refine ⟨fun i count d n hi => ⟨htight.count hi, htight.proper hi⟩, fun c io h => ?_⟩
    exact h.circles hpaired fun hi => progresses_idiomatic (htight.proper hi)
  · intro text ts hts count d n ho
    exact op_loweredSource hts ho
  · intro a text code hcode c io h
    obtain ⟨hpaired, hscan⟩ := paired_of_optimised hcode
    exact h.circles hpaired fun {i o} hi => progresses_native fun d n ho => hscan (ho ▸ hi)

/-- A stride of three cells passes a cell that is not zero, backward it leaves the tape; and an empty loop runs forever. -/
theorem scans_find_first_zero_stride :
    stateAfter (Idiomatic.step #[.op (.scan 2 .forward 3)]) 2 ⟨0, Tape.blank.add 1⟩ (.start [] {}) =
        some (⟨1, ⟨(Tape.blank.add 1).cells, 3⟩⟩, .start [] {}) ∧
      (∃ m u, runFor (Native.step #[.op (.scan .backward 3)]) m ⟨0, Tape.blank.add 1⟩ (.start [] {}) =
        some ⟨.failed (.outOfBounds none), ⟨0, u⟩, .start [] {}⟩) ∧
      ∃ p, Idiomatic.ofSource "+[]" = .ok p ∧ Circles (Idiomatic.step p) p ⟨2, Tape.blank.add 1⟩ (.start [] {}) := by
  obtain ⟨hscan, hsource, -⟩ := scans_find_first_zero
  have hcurrent : (Tape.blank.add 1).current ≠ 0 := by decide
  have hzero : ∀ {d}, ¬ (Tape.blank.add 1).ZeroAt d 3 0 := fun h => hcurrent (Tape.zeroAt_zero.mp h)
  refine ⟨?_, ?_, ?_⟩
  · have hthree : (Tape.blank.add 1).cells[3] = 0 := by simp [Tape.blank, Tape.add, Tape.set]
    have hfirst : IsFirst ((Tape.blank.add 1).ZeroAt .forward 3) 1 :=
      ⟨⟨3, rfl, hthree⟩, fun k hk => Nat.pos_of_ne_zero (by rintro rfl; exact hzero hk)⟩
    exact (((hscan _ .forward 3 (by decide)).2.2.1 _ 0 2 _ rfl (by decide)).found hfirst rfl).2
  · have hnone : ∀ k, ¬ (Tape.blank.add 1).ZeroAt .backward 3 k := by
      intro k
      cases k with
      | zero => exact hzero
      | succ k =>
        rintro ⟨i, hi, -⟩
        have hle : (k + 1) * 3 ≤ 0 := by
          simp only [Tape.cellAt?, Option.ite_none_right_eq_some] at hi
          exact hi.1
        omega
    obtain ⟨m, u, -, -, hrun⟩ := ((hscan _ .backward 3 (by decide)).2.2.2 #[.op (.scan .backward 3)] 0 _ rfl).off hnone
    exact ⟨m, u, hrun⟩
  · have ht : Tree.ofSource "+[]" = .ok (.op (.basic .increment) (.loop .nil .nil)) := Tree.ofSource_eq_ok_iff.mpr rfl
    obtain ⟨p, hp, hlinks⟩ := exists_idiomatic ht
    rw [Tree.optimise_eq_replaceIdioms, Tree.lower, Tree.runs_eq] at hlinks
    have hfollows : Follows (Code.step Idiomatic.act p) Idiomatic.act _ := .code hlinks
    have hstep := hfollows.closing (c := ⟨2, Tape.blank.add 1⟩) (i := 1) ⟨by decide, rfl, rfl, .nil⟩
    rw [if_neg hcurrent] at hstep
    refine ⟨p, hp, (hsource _ p hp).2 _ _ ?_⟩
    rintro x ⟨n, hn⟩
    induction n with
    | zero => cases hn
    | succ n ih =>
      rw [runFor, Idiomatic.step, hstep] at hn
      exact ih hn

end TapeMachine
