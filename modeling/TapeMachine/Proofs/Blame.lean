import TapeMachine.Proofs.Callback
import TapeMachine.Proofs.Containment

namespace TapeMachine

section Blameless

theorem blameless_basic (b : Basic) (c : Config) : (b.act c).Blameless := by
  cases b with
  | move d => exact blameless_moveBy c d 1 (some c.pc)
  | read => exact fun _ => trivial
  | _ => trivial

theorem blameless_readEach (c : Config) (n : Nat) : (Idiomatic.readEach c n).Blameless := by
  induction n generalizing c with
  | zero => trivial
  | succ n ih => exact fun b => ih ⟨c.pc, c.tape.set b⟩

theorem blameless_writeEach (c : Config) (n : Nat) : (Idiomatic.writeEach c n).Blameless := by
  induction n with
  | zero => trivial
  | succ n ih => exact ih

theorem blameless_idiomatic (o : Lowered) (c : Config) : (Idiomatic.act o c).Blameless := by
  match o with
  | .counted (.move d) n => exact blameless_moveBy c d n (some c.pc)
  | .counted .increment _ | .counted .decrement _ | .clear => trivial
  | .counted .read n => exact blameless_readEach c n
  | .counted .write n => exact blameless_writeEach c n
  | .scan 0 _ _ | .transfer 0 _ _ => trivial
  | .scan (_ + 1) d n =>
    rw [Idiomatic.act_scan]
    exact blameless_scanBy c d n (some c.pc)
  | .transfer (_ + 1) d n =>
    rw [Idiomatic.act_transfer]
    exact blameless_transferBy c d n (some c.pc)

theorem blameless_readLast (c : Config) (last : UInt8) (n : Nat) : (Grouped.readLast c last n).Blameless := by
  induction n generalizing last with
  | zero => trivial
  | succ n ih => exact ih

theorem blameless_writeAll (c : Config) (n : Nat) : (Grouped.writeAll c n).Blameless := by
  induction n with
  | zero => trivial
  | succ n ih => exact ih

theorem blameless_grouped (r : Counted Basic) (c : Config) : (Grouped.act r c).Blameless := by
  obtain ⟨b, n⟩ := r
  cases b with
  | move d => exact blameless_moveBy c d n (some c.pc)
  | increment => trivial
  | decrement => trivial
  | read => exact blameless_readLast c 0 n
  | write => exact blameless_writeAll c n

theorem blameless_scanning (code : Array Command) (c : Config) : (Scanning.step code c).Blameless := by
  have jump : ∀ b partner, (Scanning.jump c b partner).Blameless := by
    intro b partner
    cases partner with
    | none => exact fun _ h => nomatch h
    | some => trivial
  unfold Scanning.step
  split
  · exact fun _ h => nomatch h
  · exact blameless_basic _ c
  · split
    · exact jump _ _
    · trivial
  · split
    · exact jump _ _
    · trivial

theorem blameless_tabled (p : TabledProgram) (c : Config) : (p.step c).Blameless := by
  have jump : (p.jump c).Blameless := by
    unfold TabledProgram.jump
    split
    · exact blameless_jump c _ _
    · exact fun _ h => nomatch h
  unfold TabledProgram.step
  split
  · exact fun _ h => nomatch h
  · exact blameless_basic _ c
  · split
    · exact jump
    · trivial
  · split
    · exact jump
    · trivial

/-- An engine never ends by itself with an error of a stream. -/
theorem Engine.Loads.blameless {e : Engine} {target : Target} {text : String} {step : Step} {size : Nat}
    (h : e.Loads target text step size) (c : Config) : (step c).Blameless := by
  cases h with
  | scanning => exact blameless_scanning _ c
  | tabled => exact blameless_tabled _ c
  | grouped => exact blameless_code blameless_grouped _ c
  | idiomatic => exact blameless_code blameless_idiomatic _ c
  | plainNative => exact blameless_step _ c
  | idiomaticNative => exact blameless_step _ c

end Blameless

section Refusal

/-- What a text may be refused for before it is run. -/
inductive Failure.Early : Failure → Prop where
  | unpaired {f : Failure} : f.Unpaired → Early f
  | offset : Early .offsetTooLarge
  | opening (e : SystemError) : Early (.stream (.system e))
  | assembler (shown : String) : Early (.assembler shown)

section Emit

variable {e : Emitter} {f : Failure}

theorem Emitter.early_of_emit {r : Request} {x : Refused} (h : emit e r = .error x) : x.failure.Early := by
  have offset : ∀ {n o begun}, withOffset e n o begun = .error x → x.failure.Early := by
    intro n o begun ho
    unfold withOffset at ho
    split at ho
    · cases ho
    · cases ho
      exact .offset
  cases r with
  | move => exact offset h
  | scan => exact offset h
  | transfer => exact offset h
  | jumpEnd p =>
    simp only [emit] at h
    split at h
    · cases h
      exact .unpaired (.emitted _)
    · cases h
  | _ => cases h

theorem Emitter.early_of_emitAll {rs : List Request} (h : emitAll e rs = .error f) : f.Early := by
  induction rs generalizing e with
  | nil => cases h
  | cons r rs ih =>
    rw [emitAll] at h
    split at h
    · exact ih h
    · rename_i hr
      cases h
      exact early_of_emit hr

theorem Emitter.early_of_finish {a : Assembler} (h : finish a e = .error f) : f.Early := by
  unfold finish Assembler.commit at h
  split at h
  · split at h
    · cases h
    · cases h
      exact .assembler _
  · cases h
    exact .unpaired (.emitted _)

theorem Native.early_of_compile {α : Type} {a : Assembler} {requests : α → List Emitter.Request} {ts : List (Token α)}
    (h : compile a requests ts = .error f) : f.Early := by
  have emitted : ∀ {ts : List (Token α)} {e : Emitter} {i : Nat}, emitFrom requests e i ts = .error f → f.Early := by
    intro ts
    induction ts with
    | nil => intro e i he; cases he
    | cons t ts ih =>
      intro e i he
      rw [emitFrom] at he
      split at he
      · exact ih he
      · rename_i hr
        cases he
        exact Emitter.early_of_emitAll hr
  unfold compile Assembler.start at h
  split at h
  · rename_i hstart
    split at hstart
    · cases hstart
    · cases hstart
      cases h
      exact .opening _
  · split at h
    · exact Emitter.early_of_finish h
    · rename_i he
      cases h
      exact emitted he

theorem Native.early_of_loweredSource {text : String} (h : loweredSource text = .error f) : f.Early := by
  unfold loweredSource at h
  split at h
  · cases h
    exact .unpaired (.source _)
  · split at h
    · cases h
    · cases h
      exact .offset

end Emit

theorem Engine.early_of_prepare {e : Engine} {target : Target} {text : String} {f : Failure}
    (h : e.prepare target text = .error f) : f.Early := by
  have hload := eq_error_of_map h
  cases e with
  | scanning => cases hload
  | tabled =>
    simp only [load] at hload
    split at hload <;> cases hload
    exact .unpaired (.command _)
  | grouped =>
    simp only [load] at hload
    split at hload <;> cases hload
    exact .unpaired (.command _)
  | idiomatic =>
    simp only [load] at hload
    split at hload <;> cases hload
    exact .unpaired (.source _)
  | plainNative => exact Native.early_of_compile (eq_error_of_map hload)
  | idiomaticNative =>
    have hoptimised : Native.optimised target.assembler text = .error f := eq_error_of_map hload
    unfold Native.optimised at hoptimised
    split at hoptimised
    · exact Native.early_of_compile hoptimised
    · cases hoptimised
      exact Native.early_of_loweredSource ‹_›

end Refusal

end TapeMachine
