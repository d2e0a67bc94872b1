import TapeMachine.Proofs.Nesting
import TapeMachine.Proofs.Regroup
import TapeMachine.Proofs.Rejection

namespace TapeMachine

open Source

variable {α : Type} {step : Step} {size : Nat} {q : Failure → Prop}

theorem Action.Leads.mono {p p' : Nat → Prop} {q q' : Failure → Prop} {a : Action} (h : a.Leads p q)
    (hp : ∀ n, p n → p' n) (hq : ∀ f, q f → q' f) : a.Leads p' q' := by
  induction a with
  | resume c => exact hp _ h
  | halt c v =>
    obtain ⟨f, hv, hf⟩ := h
    exact ⟨f, hv, hq f hf⟩
  | read c granted ih => exact ⟨fun e => hq _ (h.1 e), fun b => ih b (h.2 b)⟩
  | write c b granted ih => exact ⟨fun e => hq _ (h.1 e), ih () h.2⟩
  | flush c granted ih => exact ⟨fun e => hq _ (h.1 e), ih () h.2⟩

/-- The machine is done behind its `size` instructions, and each of them leads to an instruction or behind the last one,
or fails as given. -/
structure Contained (step : Step) (size : Nat) (q : Failure → Prop) : Prop where
  past : ∀ {c : Config}, size ≤ c.pc → step c = .halt c .done
  leads : ∀ {c : Config}, c.pc < size → (step c).Leads (· ≤ size) q

namespace Contained

variable {c c' : Config} {io io' : Streams}

theorem done_iff (h : Contained step size q) : step c = .halt c .done ↔ size ≤ c.pc := by
  refine ⟨fun hdone => Nat.le_of_not_lt fun hlt => ?_, h.past⟩
  have hleads := h.leads hlt
  rw [hdone] at hleads
  obtain ⟨f, hf, -⟩ := hleads
  cases hf

theorem resume (h : Contained step size q) (hs : (step c).perform io = .resume c' io') : c'.pc ≤ size := by
  by_cases hc : c.pc < size
  · have hleads := (h.leads hc).perform io
    rw [hs] at hleads
    exact hleads
  · rw [h.past (Nat.le_of_not_lt hc)] at hs
    cases hs

theorem reaches (h : Contained step size q) (hr : Reaches step c io c' io') (hc : c.pc ≤ size) : c'.pc ≤ size := by
  induction hr with
  | refl => exact hc
  | next hs _ ih => exact ih (h.resume hs)

theorem halt (h : Contained step size q) {v : Verdict} (hs : (step c).perform io = .halt c' v io') :
    v = .done ∨ ∃ f, v = .failed f ∧ q f := by
  by_cases hc : c.pc < size
  · have hleads := (h.leads hc).perform io
    rw [hs] at hleads
    exact .inr hleads
  · rw [h.past (Nat.le_of_not_lt hc)] at hs
    cases hs
    exact .inl rfl

theorem ends (h : Contained step size q) {x : Ended} (hx : Ends step c io x) :
    x.verdict = .done ∨ ∃ f, x.verdict = .failed f ∧ q f :=
  hx.verdict fun _ _ _ _ _ => h.halt

end Contained

/-- The head would leave the tape, or the streams refuse. -/
inductive Failure.Regular : Failure → Prop where
  | off (pc? : Option Nat) : Regular (.outOfBounds pc?)
  | refused (e : StreamError) : Regular (.stream e)

theorem Action.FitsAt.leads {a : Action} {c : Config} {pc? : Option Nat} (h : a.FitsAt c (.outOfBounds pc?))
    (hc : c.pc < size) : a.Leads (· ≤ size) Failure.Regular := by
  refine h.mono ?_ ?_
  · intro n hn
    omega
  · rintro f (rfl | ⟨e, rfl⟩)
    · exact .off pc?
    · exact .refused e

section Machines

variable {act : α → Config → Action} {ts : List (Token α)} {f : Config → Option Nat}
  (hact : ∀ a c, (act a c).FitsAt c (.outOfBounds (f c)))

include hact

/-- A bracket goes on behind itself or behind its partner. -/
theorem Follows.contained (hf : Follows step act ts) (hb : Balanced ts) :
    Contained step ts.length Failure.Regular := by
  refine ⟨hf.past, ?_⟩
  intro c hc
  obtain ⟨t, ht⟩ : ∃ t, ts[c.pc]? = some t := ⟨_, List.getElem?_eq_getElem hc⟩
  cases t with
  | op a =>
    rw [hf.op ht]
    exact (hact a c).leads hc
  | bracket b =>
    cases b with
    | opening =>
      obtain ⟨j, hj⟩ := (hb.partnered ht).of_opening ht
      have hlt : j < ts.length := (List.getElem?_eq_some_iff.mp hj.2.2.1).1
      rw [hf.opening hj]
      simp only [Action.Leads]
      split <;> omega
    | closing =>
      obtain ⟨i, hi⟩ := (hb.partnered ht).of_closing ht
      have hlt : i < ts.length := (List.getElem?_eq_some_iff.mp hi.2.1).1
      rw [hf.closing hi]
      simp only [Action.Leads]
      split <;> omega

omit hact in
theorem Links.contained {code : Code α} (hact : ∀ a c, (act a c).FitsAt c (.outOfBounds (f c))) (hl : Links ts code)
    (hb : Balanced ts) : Contained (Code.step act code) code.size Failure.Regular := by
  rw [hl.size]
  exact Follows.contained hact (.code hl) hb

end Machines

section Scan

variable {cs : List Command}

/-- A scanning run may also come to a bracket without a partner. -/
def Failure.RegularOrLone (cs : List Command) (f : Failure) : Prop :=
  f.Regular ∨ ∃ b n, f = .unmatchedCommand ⟨b, n⟩ ∧ Lone cs b n

theorem Scanning.jump_leads {c : Config} {b : Bracket} {partner : Option Nat}
    (hsome : ∀ i, partner = some i → i < cs.length) (hnone : partner = none → Lone cs b c.pc) :
    (jump c b partner).Leads (· ≤ cs.length) (Failure.RegularOrLone cs) := by
  cases partner with
  | some i => exact hsome i rfl
  | none => exact ⟨_, rfl, .inr ⟨b, c.pc, rfl, hnone rfl⟩⟩

/-- A bracket goes on behind itself or behind a bracket that its search found, or it has no partner. -/
theorem Scanning.contained (cs : List Command) :
    Contained (Scanning.step cs.toArray) cs.length (Failure.RegularOrLone cs) := by
  refine ⟨(Follows.scanning cs).past, ?_⟩
  intro c hc
  have next : (Action.resume (c.next c.tape)).Leads (· ≤ cs.length) (Failure.RegularOrLone cs) := hc
  obtain ⟨t, ht⟩ : ∃ t, cs[c.pc]? = some t := ⟨_, List.getElem?_eq_getElem hc⟩
  cases t with
  | op b =>
    rw [(Follows.scanning cs).op ht]
    exact ((fitsAt_basic b c).leads hc).mono (fun _ h => h) fun _ => .inl
  | bracket b =>
    cases b with
    | opening =>
      simp only [Scanning.step, List.getElem?_toArray, ht]
      split
      · exact jump_leads (fun j => scanForward_lt) (lone_of_closingOf ht)
      · exact next
    | closing =>
      simp only [Scanning.step, List.getElem?_toArray, ht]
      split
      · exact jump_leads (fun i hi => Nat.lt_trans (scanBackward_lt hi) hc) (lone_of_openingOf ht)
      · exact next

end Scan

theorem fitsAt_readLast (c : Config) (last : UInt8) (n : Nat) (f : Failure) : (Grouped.readLast c last n).FitsAt c f := by
  induction n generalizing last with
  | zero => exact fitsAt_update c f (·.set last)
  | succ n ih => exact ⟨fun e => .inr ⟨e, rfl⟩, ih⟩

theorem fitsAt_writeAll (c : Config) (n : Nat) (f : Failure) : (Grouped.writeAll c n).FitsAt c f := by
  induction n with
  | zero => exact ⟨fun e => .inr ⟨e, rfl⟩, fitsAt_next c f _⟩
  | succ n ih => exact ⟨fun e => .inr ⟨e, rfl⟩, ih⟩

theorem fitsAt_grouped (r : Counted Basic) (c : Config) : (Grouped.act r c).FitsAt c c.outOfBounds := by
  obtain ⟨b, n⟩ := r
  cases b with
  | move d => exact fitsAt_moveBy c d n _
  | increment => exact fitsAt_update c _ (·.add n)
  | decrement => exact fitsAt_update c _ (·.sub n)
  | read => exact fitsAt_readLast c 0 n _
  | write => exact fitsAt_writeAll c n _

theorem length_foldRuns_le [DecidableEq α] {ts : List (Token α)} (hb : Balanced ts) :
    (foldRuns ts).length ≤ ts.length := by
  obtain ⟨b, rfl⟩ := Block.exists_tokens_eq hb
  rw [← Block.tokens_fold, Block.length_tokens, Block.length_tokens]
  exact b.length_fold_le

/-- The engine runs the text as this machine, with this number of instructions. -/
inductive Engine.Loads (target : Target) (text : String) : Engine → Step → Nat → Prop where
  | scanning : Loads target text scanning (Scanning.step (commands text).toArray) (commands text).toArray.size
  | tabled {p : TabledProgram} : TabledProgram.ofCommands (commands text) = .ok p →
      Loads target text tabled p.step p.commands.size
  | grouped {p : Grouped.Program} : Grouped.ofCommands (commands text) = .ok p →
      Loads target text grouped (Grouped.step p) p.size
  | idiomatic {p : Idiomatic.Program} : Idiomatic.ofSource text = .ok p →
      Loads target text idiomatic (Idiomatic.step p) p.size
  | plainNative {code : Code Native} : Native.plain target.assembler text = .ok code →
      Loads target text plainNative (Native.step code) code.size
  | idiomaticNative {code : Code Native} : Native.optimised target.assembler text = .ok code →
      Loads target text idiomaticNative (Native.step code) code.size

theorem TabledProgram.balanced_of_ofCommands {cs : List Command} {p : TabledProgram} (h : ofCommands cs = .ok p) :
    Balanced cs := by
  unfold ofCommands jumpTable at h
  cases hl : link (fun _ => 1) cs with
  | ok code => exact balanced_of_link hl
  | error u => simp [hl] at h

theorem TabledProgram.size_commands {cs : List Command} {p : TabledProgram} (h : ofCommands cs = .ok p) :
    p.commands.size = cs.length := by
  obtain ⟨code, -, rfl⟩ := exists_links h
  rfl

theorem Idiomatic.exists_link {text : String} {p : Program} (h : ofSource text = .ok p) :
    ∃ t, Tree.ofSource text = .ok t ∧ link (fun _ => 1) t.optimise.lower = .ok p := by
  cases ht : Tree.ofSource text with
  | ok t =>
    simp only [ofSource, Tree.lowerSource, ht] at h
    exact ⟨t, rfl, h⟩
  | error u => simp [ofSource, Tree.lowerSource, ht] at h

section Engines

variable {target : Target} {text : String} {e : Engine}

theorem Engine.Loads.prepare (h : e.Loads target text step size) : e.prepare target text = .ok step := by
  cases h with
  | scanning => rfl
  | tabled hp => simp only [Engine.prepare, load, hp]; rfl
  | grouped hp => simp only [Engine.prepare, load, hp]; rfl
  | idiomatic hp => simp only [Engine.prepare, load, hp]; rfl
  | plainNative hcode => rw [Native.prepare_plainNative, hcode]; rfl
  | idiomaticNative hcode => rw [Native.prepare_idiomaticNative, hcode]; rfl

theorem Engine.loads_of_prepare (h : e.prepare target text = .ok step) : ∃ size, e.Loads target text step size := by
  cases e with
  | scanning =>
    cases h
    exact ⟨_, .scanning⟩
  | tabled =>
    cases hp : TabledProgram.ofCommands (commands text) with
    | ok p =>
      simp only [Engine.prepare, load, hp] at h
      cases h
      exact ⟨_, .tabled hp⟩
    | error u => simp [Engine.prepare, load, hp, Except.map] at h
  | grouped =>
    cases hp : Grouped.ofCommands (commands text) with
    | ok p =>
      simp only [Engine.prepare, load, hp] at h
      cases h
      exact ⟨_, .grouped hp⟩
    | error u => simp [Engine.prepare, load, hp, Except.map] at h
  | idiomatic =>
    cases hp : Idiomatic.ofSource text with
    | ok p =>
      simp only [Engine.prepare, load, hp] at h
      cases h
      exact ⟨_, .idiomatic hp⟩
    | error u => simp [Engine.prepare, load, hp, Except.map] at h
  | plainNative =>
    rw [Native.prepare_plainNative] at h
    obtain ⟨code, hcode, rfl⟩ := exists_of_map_eq_ok h
    exact ⟨_, .plainNative hcode⟩
  | idiomaticNative =>
    rw [Native.prepare_idiomaticNative] at h
    obtain ⟨code, hcode, rfl⟩ := exists_of_map_eq_ok h
    exact ⟨_, .idiomaticNative hcode⟩

/-- All machines but the scanning one stay inside, and meet no bracket without a partner. -/
theorem Engine.Loads.contained (h : e.Loads target text step size) (he : e ≠ .scanning) :
    Contained step size Failure.Regular := by
  have emitted : ∀ {code : Code Native}, Native.Compiled code → Contained (Native.step code) code.size Failure.Regular := by
    intro code hcode
    obtain ⟨ts, hb, hlinks⟩ := hcode.linked
    exact hlinks.contained fitsAt_native hb
  cases h with
  | scanning => exact absurd rfl he
  | tabled hp =>
    rw [TabledProgram.size_commands hp]
    exact Follows.contained fitsAt_basic (.tabled hp) (TabledProgram.balanced_of_ofCommands hp)
  | grouped hp => exact (links_of_link hp).contained fitsAt_grouped (balanced_of_link hp)
  | idiomatic hp =>
    obtain ⟨t, -, hlink⟩ := Idiomatic.exists_link hp
    exact (links_of_link hlink).contained fitsAt_idiomatic (balanced_of_link hlink)
  | plainNative hcode => exact emitted (Native.compiled_of_plain hcode)
  | idiomaticNative hcode => exact emitted (Native.compiled_of_optimised hcode)

/-- No machine has more instructions than its text has characters. -/
theorem Engine.Loads.size_le (h : e.Loads target text step size) (hb : Balanced (commands text)) :
    size ≤ text.length := by
  have hcommands := Source.length_commands_le text
  cases h with
  | scanning => exact hcommands
  | tabled hp =>
    rw [TabledProgram.size_commands hp]
    exact hcommands
  | grouped hp =>
    rw [(links_of_link hp).size]
    exact Nat.le_trans (length_foldRuns_le hb) hcommands
  | idiomatic hp =>
    obtain ⟨t, ht, hlink⟩ := Idiomatic.exists_link hp
    have hfold := t.optimise.block.length_fold_le
    have hreplace := t.length_replaceIdioms_le
    have hblock := Tree.length_block_le ht
    rw [(links_of_link hlink).size, Tree.lower_optimise, List.length_map, Block.length_tokens, Tree.program]
    rw [Tree.optimise_eq_replaceIdioms] at hfold ⊢
    omega
  | plainNative hcode =>
    obtain ⟨code', hsize, hcode'⟩ := Native.exists_compilePlain hb
    cases (hcode' .willing (Assembler.takes_willing _)).symm.trans
      (Native.compile_of_takes Basic.map_token_requests hcode (Assembler.takes_willing _))
    exact hsize ▸ hcommands
  | idiomaticNative hcode =>
    obtain ⟨b, hts, hlinks⟩ := Native.exists_links_of_optimised hcode
    obtain ⟨t, ht, hlower⟩ := Native.exists_of_loweredSource hts
    rw [hlinks.size, Block.tokens_bind, hlower]
    exact Tree.length_natives_le ht

inductive Failure.Unpaired : Failure → Prop where
  | command (u : Unmatched) : Unpaired (.unmatchedCommand u)
  | source (u : Unmatched) : Unpaired (.unmatchedSource u)
  | emitted (u : Unmatched) : Unpaired (.unmatchedEmitted u)

theorem exists_rejected (target : Target) (h : ¬ Balanced (commands text)) : ∃ b n p, Rejected target text b n p := by
  have hlone : ∃ b i, Lone (commands text) b i := by
    simpa [balanced_iff_not_lone] using h
  by_cases hclosing : ∃ i, Lone (commands text) .closing i
  · obtain ⟨i, hi⟩ := hclosing
    obtain ⟨n, p, -, -, hr⟩ := rejected_closing target hi
    exact ⟨.closing, n, p, hr⟩
  · obtain ⟨b, i, hi⟩ := hlone
    cases b with
    | opening =>
      obtain ⟨n, m, p, -, -, -, hr⟩ := rejected_opening target (fun k hk => hclosing ⟨k, hk⟩) hi
      exact ⟨.opening, n, p, hr⟩
    | closing => exact absurd ⟨i, hi⟩ hclosing

/-- The engine compiles texts, and depends on the assembler. -/
def Engine.Assembles (e : Engine) : Prop :=
  e = .plainNative ∨ e = .idiomaticNative

section Assembles

variable (htakes : e.Assembles → target.assembler.Takes text.length)

include htakes

theorem Engine.exists_loads (hb : Balanced (commands text)) (hlen : text.length ≤ maxOffset) :
    ∃ step size, e.Loads target text step size := by
  obtain ⟨t, ht⟩ := Tree.ofSource_isOk_iff.mpr hb
  cases e with
  | scanning => exact ⟨_, _, .scanning⟩
  | tabled =>
    obtain ⟨p, hp⟩ := TabledProgram.ofCommands_of_balanced hb
    exact ⟨_, _, .tabled hp⟩
  | grouped =>
    obtain ⟨p, hp⟩ := link_of_balanced Counted.count (Block.balanced_foldRuns hb)
    exact ⟨_, _, .grouped hp⟩
  | idiomatic =>
    obtain ⟨p, hp, -⟩ := exists_idiomatic ht
    exact ⟨_, _, .idiomatic hp⟩
  | plainNative =>
    obtain ⟨code, hcode⟩ := (Native.compilePlain_isOk_iff ((htakes (.inl rfl)).mono (Source.length_commands_le text))).mpr hb
    exact ⟨_, _, .plainNative hcode⟩
  | idiomaticNative =>
    obtain ⟨code, hsize, hcode⟩ := Native.exists_optimised hlen ht
    exact ⟨_, _, .idiomaticNative (hcode _ ((htakes (.inr rfl)).mono hsize))⟩

theorem Rejected.rejects {b : Bracket} {n p : Nat} (h : Rejected target text b n p) (he : e ≠ .scanning) :
    ∃ f, e.Rejects target text f ∧ f.Unpaired := by
  cases e with
  | scanning => exact absurd rfl he
  | tabled => exact ⟨_, h.tabled, .command _⟩
  | grouped => exact ⟨_, h.grouped, .command _⟩
  | idiomatic => exact ⟨_, h.idiomatic, .source _⟩
  | plainNative => exact ⟨_, h.plainNative (htakes (.inl rfl)).opens, .emitted _⟩
  | idiomaticNative => exact ⟨_, h.idiomaticNative, .source _⟩

end Assembles

end Engines

section Indices

theorem link_destination_lt {width : α → Nat} {ts : List (Token α)} {code : Code α} (h : link width ts = .ok code)
    {x : Instr α} (hx : x ∈ code) : x.destination < code.size :=
  (links_of_link h).destination_lt (balanced_of_link h) hx

/-- While the tokens are linked, a closing bracket finds the jump that it fills in inside the code. -/
def PatchesInside (width : α → Nat) (ts : List (Token α)) : Prop :=
  ∀ pre, pre <+: ts → ∀ l, Linker.empty.pushAll width 0 pre = .ok l → ∀ o ∈ l.loops, o.index < l.code.size

theorem patchesInside (width : α → Nat) (ts : List (Token α)) : PatchesInside width ts := by
  intro pre _ l hl o ho
  have htakes := Linker.takes_of_pushAll hl
  have hlt := htakes.index_lt_of_start o ho
  rw [htakes.size_of_start]
  exact hlt

/-- Looking up partners and linking index only what is there, and no search takes a bracket off a counter at zero. -/
structure IndicesInside (text : String) : Prop where
  forward : ∀ i, (commands text)[i]? = some .opening →
    searchForward (commands text).toArray 0 i = .ofPartner (closingOf (commands text).toArray i)
  backward : ∀ i, (commands text)[i]? = some .closing →
    searchBackward (commands text).toArray 0 (i + 1) = .ofPartner (openingOf (commands text).toArray i)
  table : ∀ p, TabledProgram.ofCommands (commands text) = .ok p →
    p.table.size = p.commands.size ∧ ∀ d ∈ p.table, d < p.commands.size
  grouped : ∀ p, Grouped.ofCommands (commands text) = .ok p → ∀ x ∈ p, x.destination < p.size
  idiomatic : ∀ p, Idiomatic.ofSource text = .ok p → ∀ x ∈ p, x.destination < p.size
  linkCommands : PatchesInside (fun _ => 1) (commands text)
  linkGrouped : PatchesInside Counted.count (foldRuns (commands text))
  linkIdiomatic : ∀ ts, Tree.lowerSource text = .ok ts → PatchesInside (fun _ => 1) ts

theorem indicesInside (text : String) : IndicesInside text where
  forward _ := searchForward_of_opening
  backward _ := searchBackward_of_closing
  table := by
    intro p hp
    have hb := TabledProgram.balanced_of_ofCommands hp
    obtain ⟨code, hlinks, rfl⟩ := TabledProgram.exists_links hp
    have hsize : code.size = (commands text).toArray.size := hlinks.size
    refine ⟨by rw [Array.size_map, hsize], ?_⟩
    intro d hd
    obtain ⟨x, hx, rfl⟩ := Array.mem_map.mp hd
    exact hsize ▸ hlinks.destination_lt hb hx
  grouped _ hp _ := link_destination_lt hp
  idiomatic := by
    intro p hp x
    obtain ⟨t, -, hlink⟩ := Idiomatic.exists_link hp
    exact link_destination_lt hlink
  linkCommands := patchesInside _ _
  linkGrouped := patchesInside _ _
  linkIdiomatic _ _ := patchesInside _ _

end Indices

/-- No text makes an engine leave the tape or its program, or index outside of a table. A run of an engine that takes the
text ends in one of three ways, and if it is the scanning engine, also at a bracket without a partner; the other engines
refuse texts with such a bracket. For an engine that compiles, the assembler takes code that is not longer than the text. -/
theorem runs_stay_inside {target : Target} {text : String} (hlen : text.length ≤ maxOffset) :
    IndicesInside text ∧ ∀ e : Engine, (e.Assembles → target.assembler.Takes text.length) →
      (e ≠ .scanning ∧ ∃ f, e.Rejects target text f ∧ f.Unpaired) ∨
      ∃ step size, e.Loads target text step size ∧ size ≤ text.length ∧ (∀ c, step c = .halt c .done ↔ size ≤ c.pc) ∧
        ∀ io,
          (∀ c io', Reaches step (.start .blank) io c io' → c.tape.head < Tape.size ∧ c.pc ≤ size ∧ c.pc + 1 < 2 ^ 64) ∧
          ∀ x, e.Finishes target text io x → x.verdict = .done ∨ (∃ f, x.verdict = .failed f ∧ f.Regular) ∨
            e = .scanning ∧ ∃ b n, x.verdict = .failed (.unmatchedCommand ⟨b, n⟩) ∧ Lone (commands text) b n := by
  have inside : ∀ {e : Engine} {step : Step} {size : Nat} {q : Failure → Prop}, e.Loads target text step size →
      Contained step size q → size ≤ text.length → (∀ c, step c = .halt c .done ↔ size ≤ c.pc) ∧ ∀ io,
        (∀ c io', Reaches step (.start .blank) io c io' → c.tape.head < Tape.size ∧ c.pc ≤ size ∧ c.pc + 1 < 2 ^ 64) ∧
        ∀ x, e.Finishes target text io x → x.verdict = .done ∨ ∃ f, x.verdict = .failed f ∧ q f := by
    intro e step size q hload hin hsize
    refine ⟨fun c => hin.done_iff, fun io => ⟨fun c io' hr => ?_, fun x hx => ?_⟩⟩
    · have hpc := hin.reaches hr (Nat.zero_le size)
      have hmax : maxOffset + 1 < 2 ^ 64 := by decide
      exact ⟨c.tape.head.isLt, hpc, by omega⟩
    · exact hin.ends ((Engine.finishes_iff hload.prepare).mp hx)
  refine ⟨indicesInside text, fun e htakes => ?_⟩
  by_cases he : e = .scanning
  · subst he
    have hsize := Source.length_commands_le text
    obtain ⟨hdone, hruns⟩ := inside .scanning (Scanning.contained (commands text)) hsize
    refine .inr ⟨_, _, .scanning, hsize, hdone, fun io => ⟨(hruns io).1, fun x hx => ?_⟩⟩
    obtain hv | ⟨f, hv, hf | ⟨b, n, rfl, hlone⟩⟩ := (hruns io).2 x hx
    · exact .inl hv
    · exact .inr (.inl ⟨f, hv, hf⟩)
    · exact .inr (.inr ⟨rfl, b, n, hv, hlone⟩)
  · by_cases hb : Balanced (commands text)
    · obtain ⟨step, size, hload⟩ := Engine.exists_loads htakes hb hlen
      have hsize := hload.size_le hb
      obtain ⟨hdone, hruns⟩ := inside hload (hload.contained he) hsize
      exact .inr ⟨step, size, hload, hsize, hdone, fun io => ⟨(hruns io).1, fun x hx =>
        ((hruns io).2 x hx).imp_right .inl⟩⟩
    · obtain ⟨b, n, p, hr⟩ := exists_rejected target hb
      exact .inl ⟨he, hr.rejects htakes he⟩

/-- A loop that was never begun is to be repeated. -/
theorem runs_stay_inside_lone : ∃ x, Engine.scanning.Finishes .standard "+]" (.start [] {}) x ∧
    x.verdict = .failed (.unmatchedCommand ⟨.closing, 1⟩) ∧ Lone (commands "+]") .closing 1 := by
  have hrun : ∃ x, Engine.scanning.Finishes .standard "+]" (.start [] {}) x ∧
      x.verdict = .failed (.unmatchedCommand ⟨.closing, 1⟩) := ⟨_, ⟨5, rfl⟩, rfl⟩
  obtain ⟨x, hx, hv⟩ := hrun
  refine ⟨x, hx, hv, ?_⟩
  rcases (@runs_stay_inside .standard "+]" (by decide)).2 .scanning (fun _ => Assembler.takes_willing _) with
    ⟨hne, -⟩ | ⟨step, size, -, -, -, hruns⟩
  · exact absurd rfl hne
  · rcases (hruns (.start [] {})).2 x hx with h | ⟨f, h, hf⟩ | ⟨-, b, n, h, hlone⟩
    · cases hv.symm.trans h
    · cases hv.symm.trans h
      cases hf
    · cases hv.symm.trans h
      exact hlone

end TapeMachine
