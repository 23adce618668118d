import Recognizer.Source.Simulator

/-!
# Threads taken for a new use

A clone takes over what `thread_clone` assigns, whatever memory it was given;
its counters and captures depend on that memory. A start state's thread keeps
the captures and the interval tracking of the memory it was given.
-/

namespace Recognizer

variable {recycled : Option NFASim} {sim : NFASim} {n : Addr}

/-- The tracking count of a clone is that of its source, in either kind of memory. -/
@[simp] theorem cloneMemory_trackingIntervals :
    (cloneMemory recycled sim n).trackingIntervals = sim.trackingIntervals := by
  cases recycled with
  | none =>
    by_cases hs : sim.trackingIntervals = 0
    · simp [cloneMemory, cloneFrom, hs]
    · simp [cloneMemory, cloneFrom, hs]
  | some t =>
    by_cases hs : sim.trackingIntervals = 0
    · by_cases ht : t.trackingIntervals = 0
      · simp [cloneMemory, cloneFrom, hs, ht]
      · simp [cloneMemory, cloneFrom, hs, ht]
    · simp [cloneMemory, cloneFrom, hs]

@[simp] theorem cloneMemory_ip : (cloneMemory recycled sim n).ip = n := by
  cases recycled <;> rfl

@[simp] theorem cloneMemory_trail : (cloneMemory recycled sim n).trail = sim.trail := by
  cases recycled <;> rfl

@[simp] theorem cloneMemory_curMatch : (cloneMemory recycled sim n).curMatch = sim.curMatch := by
  cases recycled <;> rfl

@[simp] theorem cloneMemory_brefPtr : (cloneMemory recycled sim n).brefPtr = 0 := by
  cases recycled <;> rfl

@[simp] theorem cloneMemory_status : (cloneMemory recycled sim n).status = 0 := by
  cases recycled <;> rfl

@[simp] theorem cloneMemory_trackingBackrefs :
    (cloneMemory recycled sim n).trackingBackrefs = sim.trackingBackrefs := by
  cases recycled <;> rfl

@[simp] theorem startMemory_ip : (startMemory recycled n).ip = n := by
  cases recycled <;> rfl

@[simp] theorem startMemory_status : (startMemory recycled n).status = 0 := by
  cases recycled <;> rfl

@[simp] theorem startMemory_trail : (startMemory recycled n).trail = [] := by
  cases recycled <;> rfl

@[simp] theorem startMemory_curMatch : (startMemory recycled n).curMatch = {} := by
  cases recycled <;> rfl

@[simp] theorem startMemory_brefPtr : (startMemory recycled n).brefPtr = 0 := by
  cases recycled <;> rfl

@[simp] theorem startMemory_loopRecord : (startMemory recycled n).loopRecord = fun _ => 0 := by
  cases recycled <;> rfl

end Recognizer
