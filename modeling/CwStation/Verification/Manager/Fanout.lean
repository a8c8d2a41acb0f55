import CwStation.Model.Manager

/-! # A manager with one demodulator and no tap

Pumping it is running the demodulator; every subscriber is called with what the
demodulator returned. -/

namespace CwStation.AudioEngineManager

open Emit

variable {D T E S : Type} (eng : AudioDemodulator D S E)

/-- The manager of one demodulator. -/
def single (d : D) (subs : List (List E)) : AudioEngineManager D T E := ⟨[d], [], subs⟩

theorem pump_single (d : D) (subs : List (List E)) (samples : List S) :
    pump eng .idle (single d subs : AudioEngineManager D T E) samples =
      (eng.process d samples).map fun r => single r.2 (subs.map (· ++ r.1)) := by
  cases h : eng.process d samples with
  | error e => simp [pump, single, fanOut, h, bind, Except.bind, Except.map]
  | ok r =>
    simp [pump, single, fanOut, pollTaps, emit, h, bind, Except.bind, Except.map]

theorem finalize_single (d : D) (subs : List (List E)) :
    finalize eng .idle (single d subs : AudioEngineManager D T E) =
      (eng.flush d).map fun r => single r.2 (subs.map (· ++ r.1)) := by
  cases h : eng.flush d with
  | error e => simp [finalize, single, fanOut, h, bind, Except.bind, Except.map]
  | ok r =>
    simp [finalize, single, fanOut, pollTaps, emit, h, bind, Except.bind, Except.map]

theorem pumpAll_single (d : D) (subs : List (List E)) (blocks : List (List S)) :
    pumpAll eng .idle (single d subs : AudioEngineManager D T E) blocks =
      (emitAll eng.process d blocks).map fun r => single r.2 (subs.map (· ++ r.1)) := by
  induction blocks generalizing d subs with
  | nil => simp [pumpAll, Except.map]
  | cons blk rest ih =>
    rw [pumpAll, pump_single, emitAll_cons]
    cases eng.process d blk with
    | error e => rfl
    | ok first =>
      simp only [Except.map, bind, Except.bind, ih]
      cases emitAll eng.process first.2 rest with
      | error e => rfl
      | ok last => simp [List.map_map, Function.comp_def, List.append_assoc]

theorem runSource_single (d : D) (subs : List (List E)) (blocks : List (List S)) :
    runSource eng .idle (single d subs : AudioEngineManager D T E) blocks = (do
      let (out, d) ← emitAll eng.process d blocks
      let (rest, d) ← eng.flush d
      .ok (single d (subs.map (· ++ (out ++ rest))))) := by
  rw [runSource, pumpAll_single]
  cases emitAll eng.process d blocks with
  | error e => rfl
  | ok r =>
    simp only [Except.map, bind, Except.bind, finalize_single]
    cases eng.flush r.2 with
    | error e => rfl
    | ok last => simp [List.map_map, Function.comp_def, List.append_assoc]

end CwStation.AudioEngineManager
