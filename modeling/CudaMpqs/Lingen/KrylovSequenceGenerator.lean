import CudaMpqs.Foundation.GridStride
import CudaMpqs.Lingen.BasecaseSolverReference

/-! # Krylov sequence generation

`KrylovSequenceGenerator` runs the recurrence in two buffers that it swaps, or in
a captured graph that keeps the pointers of its capture, projects the vectors of a
batch at once and passes the terms through double buffers. -/

namespace CudaMpqs.Lingen

open GridStride

variable {rows m n : Nat} {transposeOutput : Bool}

abbrev Block (rows width : Nat) := Matrix (Fin rows) (Fin width) (ZMod 2)

abbrev Output (m n : Nat) : Bool → Type
  | false => Term m n
  | true => Term n m

/-! ## Kernels -/

def rowAccumulator (X : Block rows m) (V : Block rows n) (bx : Nat) (r : Fin m) : Fin n → ZMod 2 :=
  (gridStride bx 128 rows).foldl (fun acc k => if X k r = 1 then acc + V k else acc) 0

/-- The blocks add their accumulators to the term atomically. -/
def kernelKrylovBatchProj (X : Block rows m) (V : Block rows n) (S : Term m n) : Term m n :=
  (List.range 128).foldl (fun S bx => fun r => S r + rowAccumulator X V bx r) S

/-- The block sizes that `dispatch_batch_proj` compares with, and the instance that
it then launches. -/
def launchTable : List ((Nat × Nat) × (Nat × Nat)) :=
  [((64, 64), (64, 64)), ((64, 128), (64, 128)), ((64, 256), (64, 256)),
    ((64, 256), (64, 512)), ((128, 64), (128, 64)), ((128, 128), (128, 128)),
    ((128, 256), (128, 256)), ((128, 256), (128, 512)), ((256, 64), (256, 64)),
    ((256, 128), (256, 128)), ((256, 256), (256, 256)), ((256, 256), (256, 512)),
    ((512, 64), (512, 64)), ((512, 128), (512, 128)), ((512, 256), (512, 256)),
    ((512, 512), (512, 512))]

def launchInstance (m n : Nat) : Option (Nat × Nat) :=
  (launchTable.find? fun entry => entry.1 = (m, n)).map Prod.snd

/-- A bit of the source matrix, or zero beyond its rows. -/
def loadedBit (src : Term m n) (row col : Nat) : ZMod 2 :=
  if inside : row < m ∧ col < n then src ⟨row, inside.1⟩ ⟨col, inside.2⟩ else 0

def transposeBlock (src : Term m n) (dst : Term n m) (blockIdx : Nat) : Term n m :=
  let numBc := (n + 63) / 64
  let br := blockIdx / numBc
  let bc := blockIdx % numBc
  fun dstRow bit =>
    if dstRow.val / 64 = bc ∧ bit.val / 64 = br then
      loadedBit src (br * 64 + bit.val % 64) (bc * 64 + dstRow.val % 64)
    else dst dstRow bit

def kernelTransposeBatch (src : Term m n) (dst : Term n m) : Term n m :=
  (List.range ((m + 63) / 64 * ((n + 63) / 64))).foldl (transposeBlock src) dst

/-! ## The recurrence -/

structure Captures where
  innerLoop : Bool
  batchTail : Nat → Bool

/-- `dV` names the allocation that `dV_` points to, `dW_` points to the other one. The
graph of the inner loop, once captured, keeps the `dV_` of its capture. -/
structure Recurrence (rows n : Nat) where
  useCudaGraph : Bool
  vector : Bool → Block rows n
  dV : Bool
  innerLoop : Option Bool
  batchTail : Nat → Bool

namespace Recurrence

def mul (B : Block rows rows) (source : Bool) (state : Recurrence rows n) : Recurrence rows n :=
  { state with
    vector := Function.update state.vector (!source) (B * state.vector source) }

def start (B : Block rows rows) (Z : Block rows n) (state : Recurrence rows n) :
    Recurrence rows n :=
  let uploaded := { state with vector := Function.update state.vector (!state.dV) Z }
  uploaded.mul B (!state.dV)

def directStep (B : Block rows rows) (state : Recurrence rows n × (Nat → Block rows n))
    (i : Nat) : Recurrence rows n × (Nat → Block rows n) :=
  ({ state.1.mul B state.1.dV with dV := !state.1.dV },
    Function.update state.2 i (state.1.vector state.1.dV))

def directLoop (B : Block rows rows) (length tStart count : Nat)
    (state : Recurrence rows n × (Nat → Block rows n)) :
    Recurrence rows n × (Nat → Block rows n) :=
  (List.range count).foldl (fun state i =>
    if tStart + i < length then directStep B state i
    else (state.1, Function.update state.2 i (state.1.vector state.1.dV))) state

def launchInnerLoop (B : Block rows rows) (captured : Bool) (state : Recurrence rows n) :
    Recurrence rows n :=
  (state.mul B captured).mul B (!captured)

def pairStep (B : Block rows rows) (captured : Bool)
    (state : Recurrence rows n × (Nat → Block rows n)) (p : Nat) :
    Recurrence rows n × (Nat → Block rows n) :=
  let launched := launchInnerLoop B captured state.1
  (launched, Function.update (Function.update state.2 (2 * p) (state.1.vector state.1.dV))
      (2 * p + 1) (launched.vector (!launched.dV)))

def graphLoop (B : Block rows rows) (captured : Bool) (count : Nat)
    (state : Recurrence rows n × (Nat → Block rows n)) :
    Recurrence rows n × (Nat → Block rows n) :=
  let paired := (List.range (count / 2)).foldl (pairStep B captured) state
  if count % 2 ≠ 0 then directStep B paired (count - 1) else paired

/-- `capture_inner_loop_graph`; a failed capture turns the graphs off. -/
def captureInnerLoop (captures : Captures) (state : Recurrence rows n) : Recurrence rows n :=
  if captures.innerLoop then { state with innerLoop := some state.dV }
  else { state with useCudaGraph := false }

def innerLoopStep (captures : Captures) (B : Block rows rows) (batchSize length tStart : Nat)
    (state : Recurrence rows n × (Nat → Block rows n)) :
    Recurrence rows n × (Nat → Block rows n) :=
  let count := min batchSize (length - tStart)
  if state.1.useCudaGraph ∧ count = batchSize ∧ 2 ≤ count then
    let ready := if state.1.innerLoop.isNone then captureInnerLoop captures state.1 else state.1
    match ready.innerLoop with
    | some captured => graphLoop B captured count (ready, state.2)
    | none => directLoop B length tStart count (ready, state.2)
  else directLoop B length tStart count state

def captureBatchTail (captures : Captures) (batchSize count bufIdx : Nat)
    (state : Recurrence rows n) : Recurrence rows n :=
  if state.useCudaGraph ∧ count = batchSize ∧ state.batchTail bufIdx = false then
    if captures.batchTail bufIdx then
      { state with batchTail := Function.update state.batchTail bufIdx true }
    else { state with useCudaGraph := false }
  else state

end Recurrence

/-! ## The pipeline -/

structure KrylovSequenceGenerator (rows m n : Nat) (transposeOutput : Bool) where
  batchSize : Nat
  recurrence : Recurrence rows n
  vBuf : Nat → Nat → Block rows n
  sBuf : Nat → Nat → Term m n
  sTransposedBuf : Nat → Nat → Term n m
  hSBuf : Nat → Nat → Output m n transposeOutput

structure KrylovCall (rows m n : Nat) (transposeOutput : Bool) where
  generator : KrylovSequenceGenerator rows m n transposeOutput
  outSeq : Nat → Output m n transposeOutput
  target : Option (Nat → Output m n transposeOutput)

structure KrylovResult (rows m n : Nat) (transposeOutput : Bool) where
  generator : KrylovSequenceGenerator rows m n transposeOutput
  outSeq : List (Output m n transposeOutput)
  target : Option (Nat → Output m n transposeOutput)

/-- A copy of `count` values from the start of `source` to position `start`. -/
def memcpy {Value : Type} (dest : Nat → Value) (start count : Nat) (source : Nat → Value) :
    Nat → Value :=
  fun position =>
    if start ≤ position ∧ position < start + count then source (position - start)
    else dest position

def forSlots {Source Value : Type} (count : Nat) (kernel : Source → Value → Value)
    (source : Nat → Source) (dest : Nat → Value) : Nat → Value :=
  fun slot => if slot < count then kernel (source slot) (dest slot) else dest slot

namespace KrylovSequenceGenerator

def outputBuf : {transposeOutput : Bool} →
    KrylovSequenceGenerator rows m n transposeOutput → Nat → Nat → Output m n transposeOutput
  | false, generator => generator.sBuf
  | true, generator => generator.sTransposedBuf

def batchTail (X : Block rows m) (count bufIdx : Nat)
    (generator : KrylovSequenceGenerator rows m n transposeOutput) :
    KrylovSequenceGenerator rows m n transposeOutput :=
  let cleared := forSlots count (fun _ _ => 0) (generator.vBuf bufIdx) (generator.sBuf bufIdx)
  let projected := forSlots count (kernelKrylovBatchProj X) (generator.vBuf bufIdx) cleared
  { generator with
    sBuf := Function.update generator.sBuf bufIdx projected
    sTransposedBuf :=
      if transposeOutput then
        Function.update generator.sTransposedBuf bufIdx
          (forSlots count kernelTransposeBatch projected (generator.sTransposedBuf bufIdx))
      else generator.sTransposedBuf }

def computeBatch (captures : Captures) (B : Block rows rows) (X : Block rows m)
    (length batchIdx : Nat) (generator : KrylovSequenceGenerator rows m n transposeOutput) :
    KrylovSequenceGenerator rows m n transposeOutput :=
  let bufIdx := batchIdx % 2
  let tStart := batchIdx * generator.batchSize
  let count := min generator.batchSize (length - tStart)
  let iterated := Recurrence.innerLoopStep captures B generator.batchSize length tStart
    (generator.recurrence, generator.vBuf bufIdx)
  batchTail X count bufIdx
    { generator with
      recurrence := iterated.1.captureBatchTail captures generator.batchSize count bufIdx
      vBuf := Function.update generator.vBuf bufIdx iterated.2 }

end KrylovSequenceGenerator

def KrylovCall.consume (length batchIdx : Nat) (call : KrylovCall rows m n transposeOutput) :
    Nat → Output m n transposeOutput :=
  let tStart := batchIdx * call.generator.batchSize
  memcpy call.outSeq tStart (min call.generator.batchSize (length - tStart))
    (call.generator.hSBuf (batchIdx % 2))

/-- One turn of the pipeline; block sizes without an instance throw. -/
def KrylovCall.runBatch (captures : Captures) (B : Block rows rows) (X : Block rows m)
    (length : Nat) (hostCopy : Bool) (call : KrylovCall rows m n transposeOutput)
    (batchIdx : Nat) : Option (KrylovCall rows m n transposeOutput) :=
  if (launchInstance m n).isNone then none
  else
    let computed := call.generator.computeBatch captures B X length batchIdx
    let bufIdx := batchIdx % 2
    let tStart := batchIdx * computed.batchSize
    let count := min computed.batchSize (length - tStart)
    let output := computed.outputBuf bufIdx
    let target := call.target.map fun dest => memcpy dest tStart count output
    if hostCopy then
      let downloaded : KrylovCall rows m n transposeOutput :=
        { call with
          generator :=
            { computed with
              hSBuf := Function.update computed.hSBuf bufIdx
                (memcpy (computed.hSBuf bufIdx) 0 count output) }
          target := target }
      some { downloaded with
        outSeq :=
          if 0 < batchIdx then downloaded.consume length (batchIdx - 1) else call.outSeq }
    else some { call with generator := computed, target := target }

/-- `generate`. An empty sequence with a host copy ends at the event of index -1, and a
batch size of zero in a division by zero. -/
def KrylovSequenceGenerator.generate
    (generator : KrylovSequenceGenerator rows m n transposeOutput) (captures : Captures)
    (B : Block rows rows) (length : Nat) (X : Block rows m) (Z : Block rows n)
    (outSeq : Nat → Output m n transposeOutput)
    (target : Option (Nat → Output m n transposeOutput)) (hostCopy : Bool) :
    Option (KrylovResult rows m n transposeOutput) :=
  let hostCopy := hostCopy || target.isNone
  let started : KrylovCall rows m n transposeOutput :=
    ⟨{ generator with recurrence := generator.recurrence.start B Z }, outSeq, target⟩
  if generator.batchSize = 0 then none
  else
    let totalBatches := (length + generator.batchSize - 1) / generator.batchSize
    match (List.range totalBatches).foldlM
        (KrylovCall.runBatch captures B X length hostCopy) started with
    | none => none
    | some call =>
      if hostCopy then
        if totalBatches = 0 then none
        else
          some ⟨call.generator,
            (List.range length).map (call.consume length (totalBatches - 1)), call.target⟩
      else some ⟨call.generator, [], call.target⟩

end CudaMpqs.Lingen
