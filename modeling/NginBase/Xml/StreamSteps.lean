import NginBase.Xml.Rendering
import NginBase.Xml.Characters

namespace NginBase.Xml

open Library Command List

namespace StreamWriter

def Frame.startEnd (frame : Frame) : Bytes := if frame.startOpen then [0x3E] else []

def Frame.endText (frame : Frame) : Bytes :=
  if frame.startOpen then [0x2F, 0x3E] else [0x3C, 0x2F] ++ (frame.name ++ [0x3E])

inductive Step (options : WriteOptions) : Call → StreamWriter → StreamWriter → Prop
  | root {name : Bytes} {sink sink' : Sink} (named : isName name = true)
    (output : sink'.output = sink.output ++ (Writer.prolog options ++ ([0x3C] ++ name))) :
    Step options (.beginElement name) { sink } { sink := sink', stack := [{ name }], rootCount := 1 }
  | child {name : Bytes} {sink sink' : Sink} {frame : Frame} {rest : List Frame} {rootCount : Nat} (named : isName name = true)
    (output : sink'.output = sink.output ++ (frame.startEnd ++ ([0x3C] ++ name))) :
    Step options (.beginElement name) { sink, stack := frame :: rest, rootCount }
      { sink := sink', stack := { name } :: { frame with startOpen := false, hasContent := true } :: rest, rootCount }
  | addAttribute {name value : Bytes} {sink sink' : Sink} {frame : Frame} {rest : List Frame} {rootCount : Nat}
    (unclosed : frame.startOpen = true) (named : isName name = true) (fresh : name ∉ frame.attributeNames) (valid : XmlText value)
    (output : sink'.output = sink.output ++ attributeText (name, value)) :
    Step options (.addAttribute name value) { sink, stack := frame :: rest, rootCount }
      { sink := sink', stack := { frame with attributeNames := frame.attributeNames ++ [name] } :: rest, rootCount }
  | text {value : Bytes} {sink sink' : Sink} {frame : Frame} {rest : List Frame} {rootCount : Nat} (valid : XmlText value)
    (output : sink'.output = sink.output ++ (frame.startEnd ++ escaped false value)) :
    Step options (.text value) { sink, stack := frame :: rest, rootCount }
      { sink := sink', stack := { frame with startOpen := false, hasContent := true, hasText := true } :: rest, rootCount }
  | cdata {value : Bytes} {sink sink' : Sink} {frame : Frame} {rest : List Frame} {rootCount : Nat} (valid : XmlText value)
    (output : sink'.output = sink.output ++ (frame.startEnd ++ cdataText value)) :
    Step options (.cdata value) { sink, stack := frame :: rest, rootCount }
      { sink := sink', stack := { frame with startOpen := false, hasContent := true, hasText := true } :: rest, rootCount }
  | ends {sink sink' : Sink} {frame : Frame} {rest : List Frame} {rootCount : Nat} (output : sink'.output = sink.output ++ frame.endText) :
    Step options .endElement { sink, stack := frame :: rest, rootCount } { sink := sink', stack := rest, rootCount }

section

variable {options : WriteOptions} {takes : Bytes → Bytes → Bool} {w : StreamWriter}

theorem write_appends (texts : List Bytes) : (write options takes texts).Ensures w
    (fun _ w' => ∃ sink, sink.output = w.sink.output ++ texts.flatten ∧ w' = { w with sink }) fun _ _ => True := by
  unfold Command.Ensures write
  rcases written : appendAll options takes w.sink texts with ⟨result, sink⟩
  cases result with
  | ok _ => exact ⟨sink, appendAll_ok written, rfl⟩
  | error e => trivial

theorem writeEscaped_appends (inAttribute : Bool) (value : Bytes) : (writeEscaped options takes inAttribute value).Ensures w
    (fun _ w' => XmlText value ∧ ∃ sink, sink.output = w.sink.output ++ escaped inAttribute value ∧ w' = { w with sink }) fun _ _ => True := by
  unfold Command.Ensures writeEscaped
  rcases written : escape options takes inAttribute value w.sink with ⟨result, sink⟩
  cases result with
  | ok _ =>
    have valid : XmlText value := by
      unfold escape at written
      split at written
      · cases written
      rename_i allowed
      simpa [hasInvalidXmlByte, isXmlText_iff] using allowed
    exact ⟨valid, sink, escape_ok written, rfl⟩
  | error e => trivial

theorem request_keeps (grants : StreamWriter → Bool) (message : String) : (request grants message).Ensures w (fun _ w' => w = w') fun _ _ => True := by
  unfold request
  simp only [ensures_bind, ensures_get]
  split
  · trivial
  · rfl

theorem closeStart_closes {frame : Frame} {rest : List Frame} (top : w.stack = frame :: rest) :
    (closeStart options takes).Ensures w
      (fun _ w' => ∃ sink, sink.output = w.sink.output ++ frame.startEnd ∧
        w' = { w with sink, stack := { frame with startOpen := false } :: rest }) fun _ _ => True := by
  unfold closeStart
  simp only [ensures_bind, ensures_get, top]
  split
  · rename_i closed
    refine ⟨w.sink, ?_, ?_⟩
    · rw [Frame.startEnd, closed, if_neg (by decide), append_nil]
    · cases w
      cases frame
      cases closed
      cases top
      rfl
  · rename_i unclosed
    rw [Bool.not_eq_false] at unclosed
    rw [ensures_bind]
    apply (write_appends [[0x3E]]).mono _ fun _ _ _ => trivial
    rintro _ _ ⟨sink, output, rfl⟩
    refine ⟨sink, ?_, ?_⟩
    · rw [output, Frame.startEnd, unclosed]
      rfl
    · rw [top]
      rfl

theorem beforeMarkup_closes (plain : options.pretty = false) {frame : Frame} {rest : List Frame} (top : w.stack = frame :: rest) :
    (beforeMarkup options takes).Ensures w
      (fun _ w' => ∃ sink, sink.output = w.sink.output ++ frame.startEnd ∧
        w' = { w with sink, stack := { frame with startOpen := false, hasContent := true } :: rest }) fun _ _ => True := by
  unfold beforeMarkup
  simp only [ensures_bind, ensures_get, top, plain]
  apply (closeStart_closes top).mono _ fun _ _ _ => trivial
  rintro _ _ ⟨sink, output, rfl⟩
  exact ⟨sink, output, rfl⟩

variable (grants : StreamWriter → Bool)

theorem push_opens (name : Bytes) (message : String) :
    (do
      write options takes [[0x3C], name]
      request grants message
      modify fun w => { w with stack := { name } :: w.stack } : Action Unit).Ensures w
      (fun _ w' => ∃ sink, sink.output = w.sink.output ++ ([0x3C] ++ name) ∧ w' = { w with sink, stack := { name } :: w.stack })
      fun _ _ => True := by
  apply (write_appends [[0x3C], name]).bind
  rintro _ _ ⟨sink, output, rfl⟩
  apply (request_keeps grants message).bind
  rintro _ _ rfl
  refine ⟨sink, ?_, rfl⟩
  rw [output, flatten_cons, flatten_singleton]

theorem beginElement_step (plain : options.pretty = false) (name : Bytes) :
    (beginElement options takes grants name).Ensures w (fun _ w' => Step options (.beginElement name) w w') fun _ _ => True := by
  unfold beginElement
  simp only [ensures_bind, ensures_get, plain]
  split
  · trivial
  rename_i named
  rw [Bool.not_eq_false] at named
  split
  · trivial
  split
  · rename_i top
    split
    · trivial
    rename_i first
    rw [not_not] at first
    have opened (sink : Sink) (output : sink.output = w.sink.output ++ Writer.prolog options) :
        (do
          modify fun w => { w with rootCount := w.rootCount + 1 }
          write options takes [[0x3C], name]
          request grants "XML writer stack allocation failed"
          modify fun w => { w with stack := { name } :: w.stack } : Action Unit).Ensures { w with sink }
          (fun _ w' => Step options (.beginElement name) w w') fun _ _ => True := by
      apply (push_opens grants name _).mono _ fun _ _ _ => trivial
      rintro _ _ ⟨sink', output', rfl⟩
      cases w
      cases top
      cases first
      apply Step.root named
      rw [output', output, append_assoc]
    split
    · rename_i declares
      apply (write_appends [declarationText]).bind
      rintro _ _ ⟨sink, output, rfl⟩
      apply opened
      rw [output, Writer.prolog, if_pos declares, flatten_singleton]
    · rename_i omits
      apply opened w.sink
      rw [Writer.prolog, if_neg omits, append_nil]
  · rename_i inner
    obtain ⟨frame, rest, top⟩ := exists_cons_of_ne_nil inner
    apply (beforeMarkup_closes plain top).bind
    rintro _ _ ⟨sink, output, rfl⟩
    apply (push_opens grants name _).mono _ fun _ _ _ => trivial
    rintro _ _ ⟨sink', output', rfl⟩
    cases w
    cases top
    apply Step.child named
    rw [output', output, append_assoc]

theorem addAttribute_step (name value : Bytes) :
    (addAttribute options takes grants name value).Ensures w (fun _ w' => Step options (.addAttribute name value) w w') fun _ _ => True := by
  unfold addAttribute
  rw [ensures_bind, ensures_get]
  split
  · trivial
  rename_i frame rest top
  split
  · trivial
  rename_i unclosed
  split
  · trivial
  rename_i named
  split
  · trivial
  rename_i fresh
  apply (request_keeps grants _).bind
  rintro _ _ rfl
  apply (write_appends _).bind
  rintro _ _ ⟨sink₁, output₁, rfl⟩
  apply (writeEscaped_appends true value).bind
  rintro _ _ ⟨valid, sink₂, output₂, rfl⟩
  apply (write_appends _).mono _ fun _ _ _ => trivial
  rintro _ _ ⟨sink₃, output₃, rfl⟩
  cases w
  cases top
  apply Step.addAttribute (Bool.not_eq_false _ ▸ unclosed) (Bool.not_eq_false _ ▸ named) fresh valid
  rw [output₃, output₂, output₁]
  simp [attributeText]

theorem text_step (value : Bytes) :
    (text options takes value).Ensures w (fun _ w' => Step options (.text value) w w') fun _ _ => True := by
  unfold text
  rw [ensures_bind, ensures_get]
  split
  · trivial
  rename_i inner
  obtain ⟨frame, rest, top⟩ := exists_cons_of_ne_nil inner
  apply (closeStart_closes top).bind
  rintro _ _ ⟨sink, output, rfl⟩
  apply (writeEscaped_appends false value).bind
  rintro _ _ ⟨valid, sink', output', rfl⟩
  cases w
  cases top
  apply Step.text valid
  rw [output', output, append_assoc]

theorem cdata_step (value : Bytes) :
    (cdata options takes value).Ensures w (fun _ w' => Step options (.cdata value) w w') fun _ _ => True := by
  unfold cdata
  rw [ensures_bind, ensures_get]
  split
  · trivial
  rename_i accepted
  rw [not_or] at accepted
  obtain ⟨frame, rest, top⟩ := exists_cons_of_ne_nil accepted.1
  apply (closeStart_closes top).bind
  rintro _ _ ⟨sink, output, rfl⟩
  apply (write_appends (cdataChunks value)).bind
  rintro _ _ ⟨sink', output', rfl⟩
  cases w
  cases top
  have valid : XmlText value := by simpa [hasInvalidXmlByte, isXmlText_iff] using accepted.2
  apply Step.cdata valid
  rw [output', output, append_assoc]
  rfl

theorem endElement_step (plain : options.pretty = false) :
    (endElement options takes).Ensures w (fun _ w' => Step options .endElement w w') fun _ _ => True := by
  unfold endElement
  simp only [ensures_bind, ensures_get, plain]
  split
  · trivial
  rename_i frame rest top
  rw [ensures_bind]
  split
  · rename_i unclosed
    apply (write_appends _).mono _ fun _ _ _ => trivial
    rintro _ _ ⟨sink, output, rfl⟩
    cases w
    cases top
    apply Step.ends
    rw [output, Frame.endText, if_pos unclosed]
    rfl
  · rename_i closed
    simp only [Bool.false_eq_true, false_and, if_false]
    apply (write_appends _).mono _ fun _ _ _ => trivial
    rintro _ _ ⟨sink, output, rfl⟩
    cases w
    cases top
    apply Step.ends
    rw [output, Frame.endText, if_neg closed]
    simp

end

def Call.Plain : Call → Prop
  | .addAttribute _ value | .text value => 0x0D ∉ value
  | .comment _ | .processingInstruction _ _ => False
  | _ => True

theorem call_step {options : WriteOptions} (lines : options.pretty = false) (takes : Bytes → Bytes → Bool) (grants : StreamWriter → Bool)
    {c : Call} (plain : c.Plain) (w : StreamWriter) :
    (call options takes grants c).Ensures w (fun _ w' => Step options c w w') fun _ _ => True := by
  cases c with
  | beginElement name => exact beginElement_step grants lines name
  | addAttribute name value => exact addAttribute_step grants name value
  | text value => exact text_step value
  | cdata value => exact cdata_step value
  | comment value => exact plain.elim
  | processingInstruction target value => exact plain.elim
  | endElement => exact endElement_step lines

end StreamWriter

end NginBase.Xml
