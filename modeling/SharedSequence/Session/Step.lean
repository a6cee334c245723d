import SharedSequence.Sequence.Outline
import SharedSequence.Session.Answer
import SharedSequence.Session.Basic
import SharedSequence.Session.Command

namespace SharedSequence

variable {α : Type}

/-- Records elements and ends after a number of them. -/
def Collector.recorder (stop : Nat) : Collector (Array α) α :=
  fun seen value =>
    let seen := seen.push value
    if seen.size < stop then .yield seen else .done seen

def Answer.ofRecording (reached : ForInStep (Array α)) : Answer α :=
  .traversal (Collector.completed reached) (Collector.state reached).toList

namespace Session

/-- Stores a sequence and answers its summary. -/
def keep (target : String) (s : Sequence α) : SessionM α (Answer α) := do
  writeSequence target s
  return .summary s.summarize

def keepMap (target : String) (map : SequenceMap α α) : SessionM α (Answer α) := do
  writeMap target map
  return .mapSummary map.summarize

end Session

open Session

def Construction.run [BEq α] : Construction α → SessionM α (Sequence α)
  | .empty => allocating Sequence.empty
  | .replicate count value => allocating (Sequence.replicate count value)
  | .ofArray items => allocating (Sequence.ofArray items)
  | .ofBuffer items => allocating (Sequence.ofBuffer items)
  | .ofSlice items offset length => building (Sequence.ofSlice items offset length)
  | .ofOptions items => building (Sequence.ofOptions items)
  | .copy a => readSequence a
  | .concat a b => do
    let a ← readSequence a
    let b ← readSequence b
    allocating (a.concat b)
  | .concatAll parts => do allocating (Sequence.concatAll (← readSequences parts))
  | .combineAll parts => do allocating (Sequence.combineAll (← readSequences parts))
  | .appendEach a items => do allocating ((← readSequence a).appendEach items)
  | .prependEach a items => do allocating ((← readSequence a).prependEach items)
  | .slice a offset length => do building ((← readSequence a).slice offset length)
  | .sliceFrom a offset => do building ((← readSequence a).sliceFrom offset)
  | .subList a start stop => do building ((← readSequence a).asList.subList start stop)
  | .reverse a => do allocating (← readSequence a).reverse
  | .compactFlat a => do allocating (← readSequence a).compactFlat

def Query.run [BEq α] : Query α → SessionM α (Answer α)
  | .info a => do
    let s ← readSequence a
    return .info s.length s.isEmpty s.first? s.last? s.isCompact s.isIndexed
  | .isUniform a => return .flag (← readSequence a).isUniform
  | .toList a => return .elements (← readSequence a).toArray.toList
  | .get a index => return .element (some (← checked ((← readSequence a).get index)))
  | .listGet a index => return .element ((← readSequence a).asList.get? index)
  | .listElement a index => do
    match (← readSequence a).asList.elementAt index with
    | .ok value => return .element (some value)
    | .error fault => throw (.faulted fault)
  | .listInfo a => do
    let s ← readSequence a
    return .listInfo s.asList.length s.asList.isEmpty (s.asList.sequence.sameInstance s)
  | .fold a initial step => return .text ((← readSequence a).fold step initial)
  | .walk a skipping script =>
    return .script ((← readSequence a).cursor.performAll skipping script)
  | .extract a stop =>
    return .ofRecording ((← readSequence a).extract (Collector.recorder stop) #[])
  | .extractRange a offset length direction stop => do
    let s ← readSequence a
    return .ofRecording
      (← checked (s.extractRange (Collector.recorder stop) offset length direction #[]))
  | .writeInto a target offset => do
    let (outcome, written) := (← readSequence a).writeInto target offset
    checked outcome
    return .elements written.toList
  | .find a value offset => return .position (← checked ((← readSequence a).find value offset))
  | .findLast a value => return .position ((← readSequence a).findLast value)
  | .contains a value => return .flag ((← readSequence a).contains value)
  | .findAll a value => do
    let s ← readSequence a
    return .occurrences (s.positions value) (s.findLast value) (s.contains value)
  | .listFind a value => do
    let view := (← readSequence a).asList
    return .listOccurrences (view.indexOf value) (view.lastIndexOf value) (view.contains value)
  | .findSequence a needle offset => do
    let s ← readSequence a
    let needle ← readSequence needle
    return .position (← checked (s.findSequence needle offset))
  | .hashMask entries => return .count (SharedSequence.hashMask entries)
  | .sameInstance a b => do
    let a ← readSequence a
    let b ← readSequence b
    return .flag (a.sameInstance b)
  | .outline a => return .text (← readSequence a).outline

/-- The sequence whose elements are the given sequences, or copies of the first of them. -/
def Sequence.gather (parts : List (Sequence α)) (copies : Option Nat) :
    StoreM (Sequence (Sequence α)) :=
  match copies, parts with
  | some count, first :: _ => Sequence.replicate count first
  | _, _ => Sequence.ofList parts

def MapCommand.run [BEq α] : MapCommand α → SessionM α (Answer α)
  | .pair a b target => do
    let a ← readSequence a
    let b ← readSequence b
    keepMap target (← checked (SequenceMap.pair a b))
  | .copy map target => do keepMap target (← readMap map)
  | .get map key => return .element ((← readMap map).get? key)
  | .contains map value => do
    let map ← readMap map
    return .mapContains (map.containsKey value) (map.containsValue value)
  | .entries map => return .entries (← readMap map).entries
  | .keys map target => do keep target (← readMap map).keys
  | .values map target => do keep target (← readMap map).values
  | .parts map keysTo valuesTo => do
    let map ← readMap map
    writeSequence keysTo map.keys
    writeSequence valuesTo map.values
    return .mapParts map.keys.summarize map.values.summarize
  | .recode map target => do
    let pair ← allocating (← readMap map).toSequence
    let map ← checked pair.toMap
    writeMap target map
    return .mapRecoded pair.length pair.isCompact map.summarize
  | .ofSequences registers copies reversed target => do
    let gathered ← allocating (Sequence.gather (← readSequences registers) copies)
    let encoding ← if reversed then allocating gathered.reverse else pure gathered
    keepMap target (← checked encoding.toMap)

def Command.run [BEq α] : Command α → SessionM α (Answer α)
  | .construct construction target => do keep target (← construction.run)
  | .reduceAll parts target => do
    match Sequence.reduceAll (← readSequences parts) with
    | none => return .nothing
    | some reduced => keep target (← allocating reduced)
  | .query question => question.run
  | .map command => command.run

end SharedSequence
