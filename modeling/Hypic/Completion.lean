import Mathlib.Data.List.DropRight
import Hypic.Router
import Hypic.Search
import Hypic.Utf8

/-! The router's conversion of a `/generate` event stream into `/v1/completions` chunks: chunks of bytes to
    lines, lines to events, events to frames. -/

namespace Hypic.Completion
open Router Search Utf8 List

/-- A parsed JSON value; numbers that are no `u64` keep their digits. -/
inductive Value where
  | null
  | bool (value : Bool)
  | unsigned (value : Nat)
  | number (digits : Text)
  | string (text : Text)
  | array (items : List Value)
  | object (fields : List (Text × Value))

namespace Value
def get (key : String) : Value → Option Value
  | object fields => (fields.find? fun field => field.1 = key.toList).map Prod.snd
  | _ => none
def asStr : Value → Option Text
  | string text => some text
  | _ => none
def asU64 : Value → Option Nat
  | unsigned value => some value
  | _ => none
def isNull : Value → Bool
  | null => true
  | _ => false

/-- `new_text`: a missing text is the empty one. -/
def newText (v : Value) : Text := ((v.get "text").bind asStr).getD []
def metaInfo (v : Value) : Option Value := v.get "meta_info"
/-- The type of a finish reason that is there and not null, `stop` when it has none. -/
def finishReason (v : Value) : Option Text :=
  ((v.metaInfo.bind (get "finish_reason")).filter fun reason => !reason.isNull).map fun reason =>
    ((reason.get "type").bind asStr).getD "stop".toList
def count (info : Value) (key : String) : Nat := ((info.get key).bind asU64).getD 0
end Value

structure CmplCtx where
  id : Text
  created : Nat
  model : Text
  includeUsage : Bool

/-- What one SSE chunk says. -/
inductive Frame where
  | choice (delta : Text) (finish : Option Text)
  | usage (promptTokens completionTokens cachedTokens : Nat)
  | done
  deriving DecidableEq

def hexDigit (n : Nat) : Char := if n < 10 then Char.ofNat (48 + n) else Char.ofNat (87 + n)

/-- How a JSON string writes a character: quotes, backslashes and control characters are escaped. -/
def escape (c : Char) : Text :=
  if c = '"' then ['\\','"'] else if c = '\\' then ['\\','\\']
  else if c.toNat = 8 then ['\\','b'] else if c.toNat = 9 then ['\\','t'] else if c.toNat = 10 then ['\\','n']
  else if c.toNat = 12 then ['\\','f'] else if c.toNat = 13 then ['\\','r']
  else if c.toNat < 32 then ['\\','u','0','0',hexDigit (c.toNat / 16),hexDigit (c.toNat % 16)]
  else [c]

def quote (text : Text) : Text := '"'::text.flatMap escape ++ ['"']
def digits (n : Nat) : Text := Nat.toDigits 10 n

def doneMark : Text := "[DONE]".toList

namespace Frame
/-- The fields every chunk of a response shares, in the order they are written. -/
def head (ctx : CmplCtx) : Text :=
  "data: \x7b\"id\":".toList ++ quote ctx.id ++ ",\"object\":\"text_completion\",\"created\":".toList ++
    digits ctx.created ++ ",\"model\":".toList ++ quote ctx.model ++ ",\"choices\":[".toList

def render (ctx : CmplCtx) : Frame → Text
  | choice delta finish =>
    head ctx ++ "\x7b\"text\":".toList ++ quote delta ++ ",\"index\":0,\"finish_reason\":".toList ++
      (finish.elim "null".toList quote) ++ "\x7d]\x7d\n\n".toList
  | usage promptTokens completionTokens cachedTokens =>
    head ctx ++ "],\"usage\":\x7b\"prompt_tokens\":".toList ++ digits promptTokens ++ ",\"completion_tokens\":".toList ++
      digits completionTokens ++ ",\"total_tokens\":".toList ++ digits (promptTokens + completionTokens) ++
      ",\"prompt_tokens_details\":\x7b\"cached_tokens\":".toList ++ digits cachedTokens ++ "\x7d\x7d\x7d\n\n".toList
  | done => "data: ".toList ++ doneMark ++ "\n\n".toList

/-- `out.contains("[DONE]")` -/
def marked (ctx : CmplCtx) (frame : Frame) : Bool := decide (doneMark <:+: frame.render ctx)
end Frame

/-- The text an event adds: without the accumulated text when it starts with it, else all of it. -/
def delta (acc newText : Text) : Text := if acc <+: newText then newText.drop acc.length else newText
def advance (acc newText : Text) : Text := if acc <+: newText then newText else acc ++ newText

/-- The frames of one parsed event. -/
def frames (ctx : CmplCtx) (acc : Text) (v : Value) : List Frame :=
  let added := delta acc v.newText
  let finish := v.finishReason
  (if added ≠ [] ∨ finish.isSome then [.choice added finish] else []) ++
    (if finish.isSome then
      (match v.metaInfo with
        | some info =>
          if ctx.includeUsage then
            [.usage (info.count "prompt_tokens") (info.count "completion_tokens") (info.count "cached_tokens")] else []
        | none => []) ++ [.done]
    else [])

section Stream
variable (fromStr : Text → Option Value) (ctx : CmplCtx)

/-- One payload with the accumulated text; `fromStr` is the JSON parser. -/
def generateLineToCompletion (data acc : Text) : List Frame × Text :=
  if data = doneMark then ([.done],acc)
  else
    match fromStr data with
    | none => ([],acc)
    | some v => (frames ctx acc v,advance acc v.newText)

def trim (text : Text) : Text := (text.dropWhile isWhitespace).rdropWhile isWhitespace

/-- The payload of a line: blank lines and lines without `data:` have none. -/
def payload (line : Text) : Option Text :=
  if trim line ≠ [] ∧ "data:".toList <+: trim line then some (trim ((trim line).drop 5)) else none

/-- Complete lines, each with its line feed, and what is left in the buffer. -/
def drainLines : Text → Text → List Text × Text
  | line, [] => ([],line)
  | line, c::rest =>
    if c = '\n' then ((line ++ [c])::(drainLines [] rest).1,(drainLines [] rest).2) else drainLines (line ++ [c]) rest

/-- Sends the frames of the lines in order. The result is the accumulated text, or none when a frame with
    the end marker has been sent: the task returns after that line's frames. -/
def sendLines : Text → List Text → List Frame × Option Text
  | acc, [] => ([],some acc)
  | acc, line::rest =>
    match payload line with
    | none => sendLines acc rest
    | some data =>
      let out := generateLineToCompletion fromStr ctx data acc
      if out.1.any (Frame.marked ctx) then (out.1,none)
      else (out.1 ++ (sendLines out.2 rest).1,(sendLines out.2 rest).2)

/-- The body's chunks up to its end or its first error; a stream that did not end itself is closed. -/
def streamLoop : Text → Text → List Bytes → List Frame
  | _, _, [] => [.done]
  | buf, acc, chunk::rest =>
    let drained := drainLines [] (buf ++ fromUtf8Lossy chunk)
    match sendLines fromStr ctx acc drained.1 with
    | (out,none) => out
    | (out,some acc) => out ++ streamLoop drained.2 acc rest

def reshapeGenerateToCompletion (chunks : List Bytes) : List Frame := streamLoop fromStr ctx [] [] chunks

/-! ### Lines do not depend on chunks -/

theorem drainLines_append (line left right : Text) :
    drainLines line (left ++ right) =
      ((drainLines line left).1 ++ (drainLines (drainLines line left).2 right).1,
        (drainLines (drainLines line left).2 right).2) := by
  induction left generalizing line with
  | nil => rfl
  | cons c left ih =>
    simp only [cons_append,drainLines]
    split
    · simp only [ih,cons_append]
    · exact ih (line ++ [c])

theorem drainLines_of_free (line : Text) {rest : Text} (free : '\n' ∉ rest) : drainLines line rest = ([],line ++ rest) := by
  induction rest generalizing line with
  | nil => simp [drainLines]
  | cons c rest ih =>
    obtain ⟨other,later⟩ : ¬ '\n' = c ∧ '\n' ∉ rest := by simpa using free
    rw [drainLines,if_neg (Ne.symm other),ih (line ++ [c]) later,append_assoc,singleton_append]

theorem drainLines_rest {line : Text} (free : '\n' ∉ line) (text : Text) : '\n' ∉ (drainLines line text).2 := by
  induction text generalizing line with
  | nil => exact free
  | cons c rest ih =>
    rw [drainLines]
    split
    · exact ih (by simp)
    · rename_i other
      refine ih ?_
      simpa [free] using Ne.symm other

theorem sendLines_append (acc : Text) (left right : List Text) :
    sendLines fromStr ctx acc (left ++ right) =
      match sendLines fromStr ctx acc left with
      | (out,none) => (out,none)
      | (out,some acc) => (out ++ (sendLines fromStr ctx acc right).1,(sendLines fromStr ctx acc right).2) := by
  induction left generalizing acc with
  | nil => simp [sendLines]
  | cons line left ih =>
    rw [cons_append,sendLines,sendLines]
    cases payload line with
    | none => exact ih acc
    | some data =>
      dsimp only
      split
      · rfl
      · rw [ih]
        rcases sendLines fromStr ctx (generateLineToCompletion fromStr ctx data acc).2 left with ⟨out,_ | after⟩
        · rfl
        · simp only [append_assoc]

/-- Closes a stream that did not end itself. -/
def close : List Frame × Option Text → List Frame
  | (out,none) => out
  | (out,some _) => out ++ [.done]

theorem streamLoop_eq {buf : Text} (free : '\n' ∉ buf) (acc : Text) (chunks : List Bytes) :
    streamLoop fromStr ctx buf acc chunks =
      close (sendLines fromStr ctx acc (drainLines buf (chunks.flatMap fromUtf8Lossy)).1) := by
  induction chunks generalizing buf acc with
  | nil => rfl
  | cons chunk rest ih =>
    have kept : drainLines [] (buf ++ fromUtf8Lossy chunk) = drainLines buf (fromUtf8Lossy chunk) := by
      simp [drainLines_append,drainLines_of_free [] free]
    rw [streamLoop,kept,flatMap_cons,drainLines_append buf,sendLines_append]
    rcases sendLines fromStr ctx acc (drainLines buf (fromUtf8Lossy chunk)).1 with ⟨out,_ | after⟩
    · rfl
    · simp only [ih (drainLines_rest free _)]
      rcases sendLines fromStr ctx after _ with ⟨more,_ | last⟩
      · rfl
      · exact (append_assoc ..).symm

theorem reshape_eq (chunks : List Bytes) :
    reshapeGenerateToCompletion fromStr ctx chunks =
      close (sendLines fromStr ctx [] (drainLines [] (chunks.flatMap fromUtf8Lossy)).1) :=
  streamLoop_eq fromStr ctx (by simp) [] chunks

end Stream

/-! ### The end marker in a frame -/

theorem doneMark_keeps : Keeps doneMark escape where
  own := forall_iff_forall_mem.mp (by decide)
  foreign sym foreign written member := by
    have small : ∀ n < 16, hexDigit n ∉ doneMark := by decide
    have apart {text : Text} (free : text.Forall (· ∉ doneMark)) (member : written ∈ text) : written ∉ doneMark :=
      forall_iff_forall_mem.mp free written member
    unfold escape at member
    split_ifs at member with _ _ _ _ _ _ _ control
    · exact apart (by decide) member
    · exact apart (by decide) member
    · exact apart (by decide) member
    · exact apart (by decide) member
    · exact apart (by decide) member
    · exact apart (by decide) member
    · exact apart (by decide) member
    · have high := small (sym.toNat / 16) (by omega)
      have low := small (sym.toNat % 16) (by omega)
      simp only [mem_cons,not_mem_nil,or_false] at member
      rcases member with rfl | rfl | rfl | rfl | rfl | rfl
      · decide
      · decide
      · decide
      · decide
      · exact high
      · exact low
    · rwa [mem_singleton.mp member]
  written sym := by unfold escape; split_ifs <;> simp

theorem mark_in_quoted (left text right : Text) :
    doneMark <:+: left ++ quote text ++ right ↔ doneMark <:+: left ∨ doneMark <:+: text ∨ doneMark <:+: right := by
  have quoteFree : '"' ∉ doneMark := by decide
  have shape : left ++ quote text ++ right = left ++ '"'::(text.flatMap escape ++ '"'::right) := by simp [quote]
  rw [shape,infix_append_cons quoteFree,infix_append_cons quoteFree,infix_flatMap doneMark_keeps]

theorem mark_absent {text : Text} (free : '[' ∉ text) : ¬ doneMark <:+: text := fun here => free (here.subset (by decide))

theorem digit_ne_bracket (n : Nat) : '[' ∉ digits n := fun member =>
  absurd (Nat.isDigit_of_mem_toDigits (by decide) (by decide) member) (by decide)

theorem marked_choice (ctx : CmplCtx) (delta : Text) :
    (Frame.choice delta none).marked ctx = true ↔
      doneMark <:+: ctx.id ∨ doneMark <:+: ctx.model ∨ doneMark <:+: delta := by
  have shape : (Frame.choice delta none).render ctx =
      "data: \x7b\"id\":".toList ++ quote ctx.id ++
        (",\"object\":\"text_completion\",\"created\":".toList ++ digits ctx.created ++ ",\"model\":".toList) ++
        quote ctx.model ++ (",\"choices\":[".toList ++ "\x7b\"text\":".toList) ++ quote delta ++
        (",\"index\":0,\"finish_reason\":".toList ++ "null".toList ++ "\x7d]\x7d\n\n".toList) := by
    have regroup : ∀ a b c d e f g h i j k l : Text,
        a ++ b ++ c ++ d ++ e ++ f ++ g ++ h ++ i ++ j ++ k ++ l =
          a ++ b ++ (c ++ d ++ e) ++ f ++ (g ++ h) ++ i ++ (j ++ k ++ l) := by intros; simp only [append_assoc]
    exact regroup ..
  have noOpen : ¬ doneMark <:+: "data: \x7b\"id\":".toList := by decide +kernel
  have noCreated : ¬ doneMark <:+:
      ",\"object\":\"text_completion\",\"created\":".toList ++ digits ctx.created ++ ",\"model\":".toList := by
    refine mark_absent ?_
    rw [mem_append,mem_append]
    rintro ((here | here) | here)
    · revert here; decide
    · exact digit_ne_bracket _ here
    · revert here; decide
  have noChoices : ¬ doneMark <:+: ",\"choices\":[".toList ++ "\x7b\"text\":".toList := by decide +kernel
  have noClose : ¬ doneMark <:+:
      ",\"index\":0,\"finish_reason\":".toList ++ "null".toList ++ "\x7d]\x7d\n\n".toList := by decide +kernel
  rw [Frame.marked,decide_eq_true_iff,shape,mark_in_quoted,mark_in_quoted,mark_in_quoted]
  tauto

theorem marked_done (ctx : CmplCtx) : Frame.done.marked ctx = true := by
  have here : doneMark <:+: "data: ".toList ++ doneMark ++ "\n\n".toList := infix_append _ _ _
  exact decide_eq_true here

/-! ### Events -/

section Events
variable (fromStr : Text → Option Value) (ctx : CmplCtx)

def sendEvents : Text → List Value → List Frame × Option Text
  | acc, [] => ([],some acc)
  | acc, v::rest =>
    let out := frames ctx acc v
    if out.any (Frame.marked ctx) then (out,none)
    else (out ++ (sendEvents (advance acc v.newText) rest).1,(sendEvents (advance acc v.newText) rest).2)

def eventHead : Text := "data: ".toList
/-- An event as the engine writes it to its stream. -/
def eventText (data : Text) : Text := eventHead ++ data ++ ['\n','\n']

/-- A payload on one line that the parser reads as this event. -/
structure Served (event : Text × Value) : Prop where
  oneLine : '\n' ∉ event.1
  trimmed : trim event.1 = event.1
  proper : event.1 ≠ doneMark
  parsed : fromStr event.1 = some event.2

theorem payload_eventText {data : Text} (trimmed : trim data = data) :
    payload (eventHead ++ data ++ ['\n']) = some data := by
  have start : (eventHead ++ data ++ ['\n']).dropWhile isWhitespace = eventHead ++ data ++ ['\n'] := by
    rw [append_assoc]; exact dropWhile_cons_of_neg (by decide)
  have line : trim (eventHead ++ data ++ ['\n']) = (eventHead ++ data).rdropWhile isWhitespace := by
    rw [trim,start,rdropWhile_concat_pos _ _ _ (by decide)]
  rcases eq_nil_or_concat data with rfl | ⟨front,last,rfl⟩
  · decide +kernel
  · rw [concat_eq_append] at *
    have ends : ¬ isWhitespace last = true := by
      have nonempty : trim (front ++ [last]) ≠ [] := by rw [trimmed]; simp
      have lastNot := rdropWhile_last_not isWhitespace ((front ++ [last]).dropWhile isWhitespace) nonempty
      have same : (trim (front ++ [last])).getLast nonempty = last := by simp [trimmed]
      rwa [← same]
    have whole : trim (eventHead ++ (front ++ [last]) ++ ['\n']) = eventHead ++ (front ++ [last]) := by
      rw [line,← append_assoc,rdropWhile_concat_neg _ _ _ ends]
    have blank : trim (' '::(front ++ [last])) = front ++ [last] := by
      rw [trim,dropWhile_cons_of_pos (by decide)]; exact trimmed
    rw [payload,whole,if_pos ⟨by simp,⟨' '::(front ++ [last]),rfl⟩⟩]
    exact congrArg some blank

theorem drainLines_eventText {data : Text} (oneLine : '\n' ∉ data) (rest : Text) :
    (drainLines [] (eventText data ++ rest)).1 =
      (eventHead ++ data ++ ['\n'])::['\n']::(drainLines [] rest).1 := by
  have free : '\n' ∉ eventHead ++ data := by
    rw [mem_append]; exact not_or.mpr ⟨by decide,oneLine⟩
  have shape : eventText data ++ rest = (eventHead ++ data) ++ '\n' :: '\n' :: rest := by
    simp only [eventText,append_assoc,cons_append,nil_append]
  rw [shape,drainLines_append,drainLines_of_free [] free]
  simp only [drainLines,if_true,nil_append]

theorem sendLines_events {events : List (Text × Value)} (served : ∀ event ∈ events, Served fromStr event) (acc : Text) :
    sendLines fromStr ctx acc (drainLines [] (events.flatMap fun event => eventText event.1)).1 =
      sendEvents ctx acc (events.map Prod.snd) := by
  induction events generalizing acc with
  | nil => rfl
  | cons event rest ih =>
    obtain ⟨oneLine,trimmed,proper,parsed⟩ := served event mem_cons_self
    have later := ih fun other member => served other (mem_cons_of_mem event member)
    have blankLine : payload ['\n'] = none := by decide
    have response : ∀ acc, generateLineToCompletion fromStr ctx event.1 acc =
        (frames ctx acc event.2,advance acc event.2.newText) := by
      intro acc; rw [generateLineToCompletion,if_neg proper,parsed]
    rw [flatMap_cons,drainLines_eventText oneLine,sendLines,payload_eventText trimmed]
    simp only [response,sendLines,blankLine,map_cons,sendEvents,later]

/-! ### What the frames of a whole response say -/

/-- The text a piece adds to a frame keeps the frame clear of the end marker. -/
def Quiet (piece : Text) : Prop :=
  piece ≠ [] → ¬ (doneMark <:+: ctx.id ∨ doneMark <:+: ctx.model ∨ doneMark <:+: piece)

def choiceTexts (sent : List Frame) : Text :=
  sent.flatMap fun frame => match frame with | .choice delta _ => delta | _ => []

/-- One end frame, and it is the last one. -/
def Ended (sent : List Frame) : Prop := sent.count .done = 1 ∧ sent.getLast? = some .done

def Lossless (sent : List Frame) (full : Text) : Prop := choiceTexts sent = full ∧ Ended sent

/-- The text each event adds. -/
def deltas : Text → List Text → List Text
  | _, [] => []
  | acc, text::rest => delta acc text::deltas (advance acc text) rest

theorem frames_running {v : Value} (running : v.finishReason = none) (acc : Text) :
    frames ctx acc v = if delta acc v.newText ≠ [] then [.choice (delta acc v.newText) none] else [] := by
  simp [frames,running]

theorem frames_finished {v : Value} (finished : v.finishReason.isSome = true) (acc : Text) :
    ∃ middle, frames ctx acc v = .choice (delta acc v.newText) v.finishReason::middle ++ [.done] ∧
      choiceTexts middle = [] ∧ Frame.done ∉ middle := by
  unfold frames
  simp only [finished,or_true,if_true]
  cases v.metaInfo with
  | none => exact ⟨[],rfl,rfl,by simp⟩
  | some info =>
    cases ctx.includeUsage with
    | false => exact ⟨[],rfl,rfl,by simp⟩
    | true => exact ⟨[.usage _ _ _],rfl,rfl,by simp⟩

theorem ended_cons {frame : Frame} (other : frame ≠ .done) (sent : List Frame) : Ended (frame::sent) ↔ Ended sent := by
  cases sent with
  | nil => simp [Ended,other]
  | cons next rest => simp [Ended,count_cons,other]

theorem any_marked_running {v : Value} (running : v.finishReason = none) (acc : Text) :
    (frames ctx acc v).any (Frame.marked ctx) = true ↔ ¬ Quiet ctx (delta acc v.newText) := by
  rw [frames_running ctx running]
  by_cases empty : delta acc v.newText = []
  · simp [empty,Quiet]
  · simp only [ne_eq,empty,not_false_iff,if_true,any_cons,any_nil,Bool.or_false,Quiet,forall_const,
      marked_choice,not_not]

variable {last : Value} {running : List Value}

theorem sendEvents_last (finished : last.finishReason.isSome = true) (acc : Text) :
    (sendEvents ctx acc [last]).2 = none ∧ Ended (sendEvents ctx acc [last]).1 ∧
      choiceTexts (sendEvents ctx acc [last]).1 = delta acc last.newText := by
  obtain ⟨middle,shape,noText,noDone⟩ := frames_finished ctx finished acc
  have ends : (frames ctx acc last).any (Frame.marked ctx) = true :=
    any_eq_true.mpr ⟨.done,by simp [shape],marked_done ctx⟩
  have sent : sendEvents ctx acc [last] = (frames ctx acc last,none) := by simp only [sendEvents,ends,if_true]
  rw [sent,shape]
  refine ⟨rfl,⟨?_,getLast?_concat⟩,?_⟩
  · simp [count_eq_zero_of_not_mem noDone]
  · simp only [choiceTexts,cons_append,flatMap_cons,flatMap_append] at noText ⊢
    simp [noText]

/-- The stream ends with one end frame exactly when no piece before the last event puts the marker into its
    frame, and then every piece is sent. -/
theorem sendEvents_spec (unfinished : ∀ v ∈ running, v.finishReason = none)
    (finished : last.finishReason.isSome = true) (acc : Text) :
    (sendEvents ctx acc (running ++ [last])).2 = none ∧
      (Ended (sendEvents ctx acc (running ++ [last])).1 ↔ ∀ piece ∈ deltas acc (running.map Value.newText), Quiet ctx piece) ∧
      ((∀ piece ∈ deltas acc (running.map Value.newText), Quiet ctx piece) →
        choiceTexts (sendEvents ctx acc (running ++ [last])).1 =
          (deltas acc ((running ++ [last]).map Value.newText)).flatten) := by
  induction running generalizing acc with
  | nil =>
    obtain ⟨returned,ended,text⟩ := sendEvents_last ctx finished acc
    exact ⟨returned,by simpa [deltas] using ended,fun _ => by simpa [deltas] using text⟩
  | cons v running ih =>
    have running_v := unfinished v mem_cons_self
    obtain ⟨returned,ended,text⟩ := ih (fun other member => unfinished other (mem_cons_of_mem v member))
      (advance acc v.newText)
    have marked := any_marked_running ctx running_v acc
    simp only [cons_append,sendEvents,map_cons,deltas,forall_mem_cons,flatten_cons]
    by_cases quiet : Quiet ctx (delta acc v.newText)
    · rw [if_neg (fun found => marked.mp found quiet),frames_running ctx running_v]
      refine ⟨returned,?_,fun all => ?_⟩
      · by_cases empty : delta acc v.newText = []
        · simpa [empty,Quiet] using ended
        · simpa [empty,quiet] using (ended_cons (by simp) _).trans ended
      · by_cases empty : delta acc v.newText = []
        · simpa [empty] using text all.2
        · simpa [empty,choiceTexts] using text all.2
    · rw [if_pos (marked.mpr quiet),frames_running ctx running_v]
      have written : delta acc v.newText ≠ [] := fun empty => quiet fun some => absurd empty some
      refine ⟨rfl,⟨fun both => ?_,fun all => absurd all.1 quiet⟩,fun all => absurd all.1 quiet⟩
      simp [Ended,written] at both

/-! ### Cumulative and incremental texts -/

/-- How the engine's events carry the text: all of it so far, or what is new. -/
inductive Feed where
  | cumulative | incremental

def increments : Text → List Text → List Text
  | _, [] => []
  | before, text::rest => text.drop before.length::increments text rest

/-- No piece starts with all of the text before it, unless there is none. -/
def Unrepeated : Text → List Text → Prop
  | _, [] => True
  | before, piece::rest => (before ≠ [] → ¬ before <+: piece) ∧ Unrepeated (before ++ piece) rest

namespace Feed
/-- The texts of the events are of this kind. -/
def Gives : Feed → List Text → Prop
  | cumulative, texts => texts.IsChain (· <+: ·)
  | incremental, _ => True
/-- The whole text. -/
def full : Feed → List Text → Text
  | cumulative, texts => texts.getLastD []
  | incremental, texts => texts.flatten
/-- What each event adds to it. -/
def pieces : Feed → List Text → List Text
  | cumulative, texts => increments [] texts
  | incremental, texts => texts
/-- The end marker stands in no frame before the last one, and no incremental piece looks cumulative. -/
def ToldApart (ctx : CmplCtx) (feed : Feed) (texts : List Text) : Prop :=
  (∀ piece ∈ (feed.pieces texts).dropLast, Quiet ctx piece) ∧
    match feed with
    | cumulative => True
    | incremental => Unrepeated [] texts
end Feed

theorem deltas_cumulative {before : Text} {texts : List Text} (chain : (before::texts).IsChain (· <+: ·)) :
    deltas before texts = increments before texts ∧
      before ++ (increments before texts).flatten = (before::texts).getLastD [] := by
  induction texts generalizing before with
  | nil => simp [deltas,increments]
  | cons text rest ih =>
    obtain ⟨here,later⟩ := isChain_cons_cons.mp chain
    obtain ⟨same,joined⟩ := ih later
    have cut : before ++ text.drop before.length = text := (prefix_append_drop here).symm
    simp only [deltas,increments,delta,advance,here,if_true,same,flatten_cons]
    exact ⟨trivial,by rw [← append_assoc,cut,joined]; rfl⟩

theorem delta_length_le (before piece : Text) : (delta before piece).length ≤ piece.length := by
  unfold delta; split <;> simp

theorem deltas_length_le (before : Text) (texts : List Text) :
    (deltas before texts).flatten.length ≤ texts.flatten.length := by
  induction texts generalizing before with
  | nil => simp [deltas]
  | cons piece rest ih =>
    have first := delta_length_le before piece
    have later := ih (advance before piece)
    simp only [deltas,flatten_cons,length_append]
    omega

theorem deltas_incremental (before : Text) (texts : List Text) :
    ((deltas before texts).flatten = texts.flatten ↔ Unrepeated before texts) ∧
      (Unrepeated before texts → deltas before texts = texts) := by
  induction texts generalizing before with
  | nil => simp [deltas,Unrepeated]
  | cons piece rest ih =>
    simp only [deltas,Unrepeated,flatten_cons]
    by_cases looks : before ≠ [] ∧ before <+: piece
    · have shorter : (delta before piece).length < piece.length := by
        have := length_pos_iff.mpr looks.1
        have := looks.2.length_le
        rw [delta,if_pos looks.2,length_drop]
        omega
      refine ⟨⟨fun same => ?_,fun both => absurd looks.2 (both.1 looks.1)⟩,fun both => absurd looks.2 (both.1 looks.1)⟩
      have total := congrArg List.length same
      have bound := deltas_length_le (advance before piece) rest
      simp only [length_append] at total
      omega
    · have passes : before ≠ [] → ¬ before <+: piece := fun some here => looks ⟨some,here⟩
      have kept : delta before piece = piece ∧ advance before piece = before ++ piece := by
        unfold delta advance
        by_cases here : before <+: piece
        · have none : before = [] := by by_contra some; exact passes some here
          simp [none]
        · simp [here]
      rw [kept.1,kept.2]
      obtain ⟨flat,all⟩ := ih (before ++ piece)
      refine ⟨?_,fun both => congrArg (piece::·) (all both.2)⟩
      rw [append_cancel_left_eq,flat]
      exact ⟨fun later => ⟨passes,later⟩,And.right⟩

theorem deltas_dropLast (before : Text) (texts : List Text) (text : Text) :
    (deltas before (texts ++ [text])).dropLast = deltas before texts := by
  induction texts generalizing before with
  | nil => rfl
  | cons first rest ih =>
    have some : deltas (advance before first) (rest ++ [text]) ≠ [] := by cases rest <;> simp [deltas]
    rw [cons_append,deltas,deltas,dropLast_cons_of_ne_nil some,ih]

theorem toldApart_iff {texts : List Text} (text : Text) {feed : Feed} (gives : feed.Gives (texts ++ [text])) :
    feed.ToldApart ctx (texts ++ [text]) ↔
      (∀ piece ∈ deltas [] texts, Quiet ctx piece) ∧ (deltas [] (texts ++ [text])).flatten = feed.full (texts ++ [text]) := by
  have front := deltas_dropLast [] texts text
  cases feed with
  | cumulative =>
    have chain : ([]::(texts ++ [text])).IsChain (· <+: ·) := by
      cases texts with
      | nil => simp
      | cons first rest => exact isChain_cons_cons.mpr ⟨ nil_prefix,gives⟩
    obtain ⟨same,joined⟩ := deltas_cumulative chain
    have whole : (deltas [] (texts ++ [text])).flatten = Feed.cumulative.full (texts ++ [text]) := by
      rw [same,← nil_append (increments [] _).flatten,joined]
      rw [← cons_append,Feed.full,getLastD_concat,getLastD_concat]
    rw [← front,same]
    exact ⟨fun apart => ⟨apart.1,same ▸ whole⟩,fun both => ⟨both.1,trivial⟩⟩
  | incremental =>
    obtain ⟨flat,all⟩ := deltas_incremental [] (texts ++ [text])
    rw [← front]
    constructor
    · rintro ⟨quiet,unrepeated⟩
      exact ⟨by rw [all unrepeated]; exact quiet,flat.mpr unrepeated⟩
    · rintro ⟨quiet,same⟩
      have unrepeated := flat.mp same
      exact ⟨by rw [all unrepeated] at quiet; exact quiet,unrepeated⟩

/-- The conversion is lossless exactly on the responses whose texts can be told apart. -/
theorem lossless_iff_toldApart {events : List (Text × Value)} {last : Text × Value}
    (served : ∀ event ∈ events ++ [last], Served fromStr event)
    (unfinished : ∀ event ∈ events, event.2.finishReason = none) (finished : last.2.finishReason.isSome = true)
    {chunks : List Bytes} {more : Text}
    (received : chunks.flatMap fromUtf8Lossy = ((events ++ [last]).flatMap fun event => eventText event.1) ++ more)
    {texts : List Text} (carried : texts = (events ++ [last]).map fun event => event.2.newText)
    {feed : Feed} (gives : feed.Gives texts) :
    Lossless (reshapeGenerateToCompletion fromStr ctx chunks) (feed.full texts) ↔ feed.ToldApart ctx texts := by
  have values : texts = ((events.map Prod.snd) ++ [last.2]).map Value.newText := by simp [carried]
  have running : ∀ v ∈ events.map Prod.snd, v.finishReason = none := by
    intro v member
    obtain ⟨event,inEvents,rfl⟩ := mem_map.mp member
    exact unfinished event inEvents
  obtain ⟨returned,ended,text⟩ := sendEvents_spec ctx running finished []
  have sent : reshapeGenerateToCompletion fromStr ctx chunks = (sendEvents ctx [] (events.map Prod.snd ++ [last.2])).1 := by
    rw [reshape_eq,received,drainLines_append,sendLines_append,sendLines_events fromStr ctx served,map_append,
      map_singleton]
    generalize sendEvents ctx [] (events.map Prod.snd ++ [last.2]) = result at returned
    obtain ⟨out,after⟩ := result
    cases returned
    rfl
  rw [values,map_append,map_singleton] at gives ⊢
  rw [toldApart_iff ctx _ gives,sent,Lossless,ended]
  constructor
  · rintro ⟨whole,quiet⟩
    refine ⟨quiet,?_⟩
    rw [← whole,text quiet,map_append,map_singleton]
  · rintro ⟨quiet,whole⟩
    refine ⟨?_,quiet⟩
    rw [text quiet,← whole,map_append,map_singleton]
end Events

/-! ### Responses on which it goes wrong -/

/-- Reads the events of the responses below as a JSON parser does. -/
def readEvent (data : Text) : Option Value :=
  let opening := "\x7b\"text\":\"".toList
  let rest := data.drop opening.length
  let text := rest.takeWhile fun c => c ≠ '"'
  if ¬ opening <+: data then none
  else if rest.drop text.length = "\"\x7d".toList then some (.object [("text".toList,.string text)])
  else if rest.drop text.length = "\",\"meta_info\":\x7b\"finish_reason\":\x7b\"type\":\"stop\"\x7d\x7d\x7d".toList then
    some (.object [("text".toList,.string text),
      ("meta_info".toList,.object [("finish_reason".toList,.object [("type".toList,.string "stop".toList)])])])
  else none

def ascii (text : String) : Bytes := text.toList.map fun c => UInt8.ofNat c.toNat

def sampleCtx : CmplCtx := ⟨"cmpl-x".toList,1,"m".toList,false⟩

def pieceEvent (text : Text) : Text × Value :=
  ("\x7b\"text\":\"".toList ++ text ++ "\"\x7d".toList,.object [("text".toList,.string text)])
def stopEvent (text : Text) : Text × Value :=
  ("\x7b\"text\":\"".toList ++ text ++ "\",\"meta_info\":\x7b\"finish_reason\":\x7b\"type\":\"stop\"\x7d\x7d\x7d".toList,
    .object [("text".toList,.string text),
      ("meta_info".toList,.object [("finish_reason".toList,.object [("type".toList,.string "stop".toList)])])])

/-- The events of the pieces `a` and `a`, in one chunk. -/
def twiceA : List Bytes :=
  [ascii "data: \x7b\"text\":\"a\"\x7d\n\ndata: \x7b\"text\":\"a\",\"meta_info\":\x7b\"finish_reason\":\x7b\"type\":\"stop\"\x7d\x7d\x7d\n\n"]

/-- The second piece is taken for the whole text so far, and its letter is lost. -/
theorem repeated_piece_is_lost :
    twiceA.flatMap fromUtf8Lossy = [pieceEvent ['a'],stopEvent ['a']].flatMap (fun event => eventText event.1) ∧
      reshapeGenerateToCompletion readEvent sampleCtx twiceA =
        [.choice ['a'] none,.choice [] (some "stop".toList),.done] ∧
      ¬ Lossless (reshapeGenerateToCompletion readEvent sampleCtx twiceA) (Feed.incremental.full [['a'],['a']]) := by
  have sent : reshapeGenerateToCompletion readEvent sampleCtx twiceA =
      [.choice ['a'] none,.choice [] (some "stop".toList),.done] := by decide +kernel
  refine ⟨by decide +kernel,sent,?_⟩
  rw [sent]
  exact fun lossless => absurd lossless.1 (by decide)

theorem repeated_piece_not_toldApart :
    twiceA.flatMap fromUtf8Lossy =
        (([pieceEvent ['a']] ++ [stopEvent ['a']]).flatMap fun event => eventText event.1) ++ [] ∧
      (Lossless (reshapeGenerateToCompletion readEvent sampleCtx twiceA) (Feed.incremental.full [['a'],['a']]) ↔
        Feed.incremental.ToldApart sampleCtx [['a'],['a']]) := by
  have received : twiceA.flatMap fromUtf8Lossy =
      (([pieceEvent ['a']] ++ [stopEvent ['a']]).flatMap fun event => eventText event.1) ++ [] := by decide +kernel
  refine ⟨received,lossless_iff_toldApart readEvent sampleCtx ?_ ?_ rfl received rfl trivial⟩
  · intro event member
    simp only [singleton_append,mem_cons,not_mem_nil,or_false] at member
    rcases member with rfl | rfl
    · exact ⟨by decide +kernel,by decide +kernel,by decide +kernel,rfl⟩
    · exact ⟨by decide +kernel,by decide +kernel,by decide +kernel,rfl⟩
  · intro event member
    cases mem_singleton.mp member
    rfl

/-- An event with the letter U+00E9, two bytes long. -/
def accented : Bytes := ascii "data: \x7b\"text\":\"" ++ [0xC3,0xA9] ++ ascii "\"\x7d\n\n"

end Hypic.Completion
