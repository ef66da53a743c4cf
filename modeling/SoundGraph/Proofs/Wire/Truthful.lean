import SoundGraph.Proofs.Wire.Extension
import SoundGraph.Proofs.Wire.Positioned

/-! What an error says is true. The decoder read by position and the decoder of unread bytes go through a
file side by side: at each step both stand at the same byte, inside the file, and where they stop, the byte
that the error names is to blame. So reading by position breaks none of its rules. -/

namespace SoundGraph.Wire

def CorruptionKind.Describes (file : List UInt8) (offset : Nat) : CorruptionKind → Prop
  | badMagic found => offset = 0 ∧ found.length = 4 ∧ found <+: file ∧ found ≠ magic
  | unsupportedVersion v =>
    offset = 4 ∧ 8 ≤ file.length ∧ v = signed32 (ofBigEndian ((file.drop 4).take 4)) ∧ v ≠ version
  | truncated needed available => available < needed ∧ offset + available = file.length
  | unknownRate tag => file[offset]? = some tag ∧ ∀ r : Rate, r.tag ≠ tag.toNat
  | unknownInputTag tag => file[offset]? = some tag ∧ tag ≠ constantTag ∧ tag ≠ nodeTag
  | reservedFlags flags => file[offset]? = some flags ∧ 4 ≤ flags.toNat
  | invalidUtf8 =>
    ∃ before length name after, file = before ++ length :: (name ++ after) ∧ before.length + 1 = offset ∧
      name.length = length.toNat ∧ ∀ s : String, s.toUTF8.toList ≠ name
  | trailingBytes n => 0 < n ∧ offset + n = file.length
  | definitionCount _ => False
  | invalid v => ∃ g record, record <+: file.drop offset ∧ GraphRecord g record ∧ g.validate = .error v

structure Corruption.Truthful (file : List UInt8) (e : Corruption) : Prop where
  inside : e.offset ≤ file.length
  describes : e.kind.Describes file e.offset

/-- The cursor stands in the file, and the unread bytes are those from its offset on. -/
structure Cursor.At (file : List UInt8) (c : Cursor) : Prop where
  inside : c.offset ≤ file.length
  rest : c.rest = file.drop c.offset

/-- From `c` on, the reader of positions does what the reader of unread bytes does, stays in the file, and
says of the file what is true. -/
def Agrees {α : Type} (file : List UInt8) (seek : Seek α) (read : Read α) (c : Cursor) : Prop :=
  (∃ a c', read c = .ok (a, c') ∧ c'.At file ∧ seek file c.offset = .ok (a, c'.offset)) ∨
    ∃ e, read c = .error e ∧ e.Truthful file ∧ seek file c.offset = .error (.corrupt e)

variable {α β : Type} {file : List UInt8} {seek : Seek α} {read : Read α} {c c' : Cursor}

theorem Cursor.At.left_eq (h : c.At file) : c.left = file.length - c.offset := by
  rw [c.left_eq, h.rest, List.length_drop]

theorem agrees_pure (h : c.At file) (a : α) : Agrees file (pure a) (pure a) c :=
  .inl ⟨a, c, rfl, h, rfl⟩

theorem agrees_failAt {offset : Nat} {kind : CorruptionKind} (h : Corruption.Truthful file ⟨offset, kind⟩) :
    Agrees file (failAt offset kind) (failAt offset kind : Read α) c :=
  .inr ⟨_, rfl, h, rfl⟩

theorem agrees_offset {f : Nat → Read α} {fseek : Nat → Seek α} (h : Agrees file (fseek c.offset) (f c.offset) c) :
    Agrees file (offset >>= fseek) (offset >>= f) c := h

theorem agrees_reserve (h : c.At file) (table : Table) (capacity : Nat) :
    Agrees file (reserve table capacity) (reserve table capacity) c := .inl ⟨(), c, rfl, h, rfl⟩

theorem run_bind {f : α → Seek β} {p q : Nat} {a : α} (h : seek file p = .ok (a, q)) :
    (seek >>= f) file p = f a file q := by
  change (seek file p >>= fun r => f r.1 file r.2) = _
  rw [h]
  rfl

theorem run_bind_error {f : α → Seek β} {p : Nat} {stop : Stop} (h : seek file p = .error stop) :
    (seek >>= f) file p = .error stop := by
  change (seek file p >>= fun r => f r.1 file r.2) = _
  rw [h]
  rfl

theorem Agrees.bind {fseek : α → Seek β} {fread : α → Read β} (h : Agrees file seek read c)
    (hf : ∀ a c', read c = .ok (a, c') → c'.At file → Agrees file (fseek a) (fread a) c') :
    Agrees file (seek >>= fseek) (read >>= fread) c := by
  rcases h with ⟨a, c', ha, hat, hs⟩ | ⟨e, he, htrue, hs⟩
  · rcases hf a c' ha hat with ⟨b, c'', hb, hat', hs'⟩ | ⟨e, he, htrue, hs'⟩
    · exact .inl ⟨b, c'', bind_apply_eq_ok_iff.2 ⟨a, c', ha, hb⟩, hat', (run_bind hs).trans hs'⟩
    · exact .inr ⟨e, bind_apply_eq_error_iff.2 (.inr ⟨a, c', ha, he⟩), htrue, (run_bind hs).trans hs'⟩
  · exact .inr ⟨e, bind_apply_eq_error_iff.2 (.inl he), htrue, run_bind_error hs⟩

theorem run_minus {a b p : Nat} (h : b ≤ a) : Seek.minus a b file p = .ok (a - b, p) := by
  rw [Seek.minus, if_pos h]
  rfl

theorem run_left (h : c.At file) : Seek.left file c.offset = .ok (c.left, c.offset) := by
  rw [h.left_eq]
  exact run_minus h.inside

theorem agrees_remaining (h : c.At file) : Agrees file remaining remaining c :=
  .inl ⟨c.left, c, rfl, h, run_left h⟩

theorem run_slice {start stop p : Nat} (h : start ≤ stop) (hstop : stop ≤ file.length) :
    Seek.slice start stop file p = .ok ((file.take stop).drop start, p) := by
  change (if start ≤ stop ∧ stop ≤ file.length then _ else _ : Seek (List UInt8)) file p = _
  rw [if_pos ⟨h, hstop⟩]
  rfl

theorem run_moveTo {p q : Nat} (h : q ≤ file.length) : Seek.moveTo q file p = .ok ((), q) := by
  change (if q ≤ file.length then _ else _ : Seek Unit) file p = _
  rw [if_pos h]
  rfl

theorem run_take {n p : Nat} (h : p + n ≤ file.length) :
    (take n : Seek (List UInt8)) file p = .ok ((file.take (p + n)).drop p, p + n) := by
  change (if p + n ≤ file.length then _ else _ : Seek (List UInt8)) file p = _
  rw [if_pos h, run_bind (run_slice (Nat.le_add_right ..) h), run_bind (run_moveTo h)]
  rfl

theorem run_take_short (h : c.At file) {n : Nat} (hshort : ¬c.offset + n ≤ file.length) :
    (take n : Seek (List UInt8)) file c.offset = .error (.corrupt ⟨c.offset, .truncated n c.left⟩) := by
  change (if c.offset + n ≤ file.length then _ else _ : Seek (List UInt8)) file c.offset = _
  rw [if_neg hshort, run_bind (run_left h)]
  rfl

theorem truncated_truthful (h : c.At file) {needed : Nat} (hshort : c.left < needed) :
    Corruption.Truthful file ⟨c.offset, .truncated needed c.left⟩ := by
  have hinside := h.inside
  have hleft := h.left_eq
  refine ⟨hinside, hshort, ?_⟩
  change c.offset + c.left = file.length
  omega

/-- The one place where bytes are read: as many as there are, in the file and behind the position. -/
theorem agrees_take (h : c.At file) (n : Nat) : Agrees file (take n) (take n) c := by
  have hleft := h.left_eq
  have hinside := h.inside
  by_cases hn : n ≤ c.left
  · have hfits : c.offset + n ≤ file.length := by omega
    have hbytes : (file.take (c.offset + n)).drop c.offset = c.rest.take n := by
      rw [List.drop_take, h.rest, Nat.add_sub_cancel_left]
    refine .inl ⟨c.rest.take n, ⟨c.offset + n, c.rest.drop n, c.left - n, by rw [c.left_eq, List.length_drop]⟩,
      ?_, ⟨hfits, ?_⟩, ?_⟩
    · rw [take_apply, if_pos hn]
    · change c.rest.drop n = file.drop (c.offset + n)
      rw [h.rest, List.drop_drop]
    · rw [run_take hfits, hbytes]
  · have hshort : c.left < n := Nat.lt_of_not_le hn
    refine .inr ⟨⟨c.offset, .truncated n c.left⟩, ?_, truncated_truthful h hshort, ?_⟩
    · rw [take_apply, if_neg hn]
    · exact run_take_short h (by omega)

theorem agrees_word (h : c.At file) (width : Nat) : Agrees file (word width) (word width) c :=
  (agrees_take h width).bind fun _ _ _ hat => agrees_pure hat _

theorem agrees_byte (h : c.At file) : Agrees file byte byte c :=
  (agrees_word h 1).bind fun _ _ _ hat => agrees_pure hat _

/-- By induction on the number of entries that are left. -/
theorem agrees_repeatRead (hentry : ∀ c : Cursor, c.At file → Agrees file seek read c) (h : c.At file)
    (acc : List α) (n : Nat) : Agrees file (repeatRead seek acc n) (repeatRead read acc n) c := by
  induction n generalizing c acc with
  | zero => exact agrees_pure h acc.reverse
  | succ n ih =>
    rw [repeatRead]
    exact (hentry c h).bind fun a c' _ hat => ih hat (a :: acc)

theorem agrees_decodeCount (h : c.At file) (size : Nat) :
    Agrees file (decodeCount true size) (decodeCount true size) c := by
  refine (agrees_word h 4).bind fun n c' _ hat => (agrees_remaining hat).bind fun left c₁ hleft hat₁ => ?_
  cases hleft
  split
  · next hshort =>
    refine agrees_offset ((agrees_remaining hat).bind fun left c₂ hleft _ => ?_)
    cases hleft
    exact agrees_failAt (truncated_truthful hat hshort.2)
  · exact agrees_pure hat n

theorem agrees_decodeTable (hentry : ∀ c : Cursor, c.At file → Agrees file seek read c) (h : c.At file)
    (table : Table) (size : Nat) :
    Agrees file (decodeTable true table size seek) (decodeTable true table size read) c :=
  (agrees_decodeCount h size).bind fun n _ _ hat => (agrees_reserve hat table n).bind fun _ _ _ hat =>
    agrees_repeatRead hentry hat [] n

theorem agrees_decodeSample (h : c.At file) : Agrees file decodeSample decodeSample c :=
  (agrees_word h 4).bind fun _ _ _ hat => agrees_pure hat _

theorem byte_at (h : c.At file) {tag : UInt8} (hbyte : (byte : Read UInt8) c = .ok (tag, c')) :
    file[c.offset]? = some tag ∧ c'.offset = c.offset + 1 := by
  obtain ⟨_, rfl, hskip⟩ := (parses_byte c tag c').1 hbyte
  have hrest : file.drop c.offset = tag :: c'.rest := by rw [← h.rest, hskip.rest, List.singleton_append]
  have hget : (file.drop c.offset)[0]? = some tag := by rw [hrest]; rfl
  rw [List.getElem?_drop] at hget
  exact ⟨hget, hskip.offset⟩

/-- A field that opens with a byte telling what it is. -/
theorem agrees_tagged {fread : UInt8 → Read α} {fseek : UInt8 → Seek α} (h : c.At file)
    (hf : ∀ tag c', file[c.offset]? = some tag → c'.offset = c.offset + 1 → c'.At file →
      Agrees file (fseek tag) (fread tag) c') :
    Agrees file (byte >>= fseek) (byte >>= fread) c := by
  refine (agrees_byte h).bind fun tag c' hbyte hat => ?_
  obtain ⟨htag, hoffset⟩ := byte_at h hbyte
  exact hf tag c' htag hoffset hat

/-- An error one byte back. -/
theorem agrees_blame {start : Nat} {kind : CorruptionKind} (hoffset : c.offset = start + 1)
    (h : Corruption.Truthful file ⟨start, kind⟩) :
    Agrees file (previous >>= fun p => failAt p kind) (previous >>= fun p => failAt p kind : Read α) c := by
  have hback : c.offset - 1 = start := by rw [hoffset, Nat.add_sub_cancel]
  refine .inr ⟨⟨start, kind⟩, by rw [← hback]; rfl, h, ?_⟩
  have hprevious : (previous : Seek Nat) file c.offset = .ok (start, c.offset) := by
    rw [← hback]
    exact run_minus (by omega)
  rw [run_bind hprevious]
  rfl

theorem inside_of_getElem? {i : Nat} {b : UInt8} (h : file[i]? = some b) : i ≤ file.length :=
  Nat.le_of_lt (List.getElem?_eq_some_iff.1 h).1

theorem agrees_decodeRate (h : c.At file) : Agrees file decodeRate decodeRate c := by
  refine agrees_tagged h fun tag c' htag hoffset hat => ?_
  cases hrate : Rate.ofTag? tag.toNat with
  | some rate => exact agrees_pure hat rate
  | none =>
    have hunknown : ∀ r : Rate, r.tag ≠ tag.toNat := by
      intro r hr
      rw [← hr, Rate.ofTag?_tag] at hrate
      cases hrate
    have htrue : Corruption.Truthful file ⟨c.offset, .unknownRate tag⟩ :=
      ⟨inside_of_getElem? htag, htag, hunknown⟩
    exact agrees_blame hoffset htrue

theorem agrees_decodeInput (h : c.At file) : Agrees file decodeInput decodeInput c := by
  refine agrees_tagged h fun tag c' htag hoffset hat => ?_
  split
  · exact (agrees_word hat 4).bind fun _ _ _ hat => agrees_pure hat _
  · next hconstant =>
    split
    · exact (agrees_word hat 4).bind fun _ _ _ hat => (agrees_word hat 4).bind fun _ _ _ hat =>
        agrees_pure hat _
    · next hnode =>
      have htrue : Corruption.Truthful file ⟨c.offset, .unknownInputTag tag⟩ :=
        ⟨inside_of_getElem? htag, htag, hconstant, hnode⟩
      exact agrees_blame hoffset htrue

theorem agrees_decodeFlags (h : c.At file) : Agrees file decodeFlags decodeFlags c := by
  refine agrees_tagged h fun flags c' hflags hoffset hat => ?_
  split
  · exact agrees_pure hat _
  · next hhigh =>
    have htrue : Corruption.Truthful file ⟨c.offset, .reservedFlags flags⟩ :=
      ⟨inside_of_getElem? hflags, hflags, Nat.le_of_not_lt hhigh⟩
    exact agrees_blame hoffset htrue

/-- A length byte and as many bytes as it announces, which are no text. -/
theorem agrees_decodeName (h : c.At file) : Agrees file decodeName decodeName c := by
  refine (agrees_word h 1).bind fun n c₁ hn hat => ?_
  refine agrees_offset ((agrees_take hat n).bind fun xs c₂ hxs hat' => ?_)
  cases hname : String.fromUTF8? ⟨xs.toArray⟩ with
  | some name => exact agrees_pure hat' name
  | none =>
    obtain ⟨_, ⟨hsmall, rfl⟩, hskip⟩ := (parses_word 1 c n c₁).1 hn
    obtain ⟨_, ⟨rfl, hlen⟩, hskip'⟩ := (parses_take n c₁ xs c₂).1 hxs
    have hfile : file = file.take c.offset ++ UInt8.ofNat n :: (xs ++ c₂.rest) := by
      rw [← hskip'.rest, ← List.singleton_append, ← bigEndian_one, ← hskip.rest, h.rest,
        List.take_append_drop]
    have hbefore : (file.take c.offset).length + 1 = c₁.offset := by
      rw [List.length_take, Nat.min_eq_left h.inside, hskip.offset, bigEndian_one, List.length_singleton]
    have hannounced : xs.length = (UInt8.ofNat n).toNat := by
      rw [hlen, UInt8.toNat_ofNat']
      exact (Nat.mod_eq_of_lt hsmall).symm
    have hnone : ∀ s : String, s.toUTF8.toList ≠ xs := by
      intro s hs
      rw [fromUTF8?_eq_some_iff.2 hs] at hname
      cases hname
    have htrue : Corruption.Truthful file ⟨c₁.offset, .invalidUtf8⟩ :=
      ⟨hat.inside, file.take c.offset, UInt8.ofNat n, xs, c₂.rest, hfile, hbefore, hannounced, hnone⟩
    exact agrees_failAt htrue

theorem agrees_decodeControl (h : c.At file) : Agrees file decodeControl decodeControl c :=
  (agrees_decodeName h).bind fun _ _ _ hat => (agrees_decodeRate hat).bind fun _ _ _ hat =>
    (agrees_decodeSample hat).bind fun _ _ _ hat => (agrees_word hat 4).bind fun _ _ _ hat =>
      agrees_pure hat _

theorem agrees_decodeNode (h : c.At file) : Agrees file (decodeNode true) (decodeNode true) c :=
  (agrees_decodeName h).bind fun _ _ _ hat => (agrees_decodeRate hat).bind fun _ _ _ hat =>
    (agrees_decodeTable (fun _ => agrees_decodeInput) hat .inputs 5).bind fun _ _ _ hat =>
      (agrees_decodeTable (fun _ => agrees_decodeRate) hat .outputs 1).bind fun _ _ _ hat =>
        (agrees_decodeFlags hat).bind fun _ _ _ hat => agrees_pure hat _

theorem agrees_decodeTables (h : c.At file) : Agrees file (decodeTables true) (decodeTables true) c :=
  (agrees_decodeTable (fun _ => agrees_decodeSample) h .constants 4).bind fun _ _ _ hat =>
    (agrees_decodeTable (fun _ => agrees_decodeControl) hat .controls 10).bind fun _ _ _ hat =>
      (agrees_decodeTable (fun _ => agrees_decodeNode) hat .nodes 11).bind fun _ _ _ hat => agrees_pure hat _

theorem agrees_decodeGraph (h : c.At file) : Agrees file (decodeGraph true) (decodeGraph true) c := by
  refine agrees_offset ((agrees_decodeTables h).bind fun g c' hg hat => ?_)
  rw [checkGraph, checkGraph]
  cases hv : g.validate with
  | ok => exact agrees_pure hat g
  | error v =>
    obtain ⟨record, hrecord, hskip⟩ := (parses_decodeTables true c g c').1 hg
    have hprefix : record <+: file.drop c.offset := by
      rw [← h.rest, hskip.rest]
      exact List.prefix_append _ _
    have htrue : Corruption.Truthful file ⟨c.offset, .invalid v⟩ :=
      ⟨h.inside, g, record, hprefix, hrecord, hv⟩
    exact agrees_failAt htrue

theorem agrees_decodeDefinition (h : c.At file) : Agrees file (decodeDefinition true) (decodeDefinition true) c :=
  (agrees_decodeName h).bind fun _ _ _ hat => (agrees_decodeGraph hat).bind fun _ _ _ hat =>
    agrees_pure hat _

theorem signed32_ne {n m : Nat} (hn : n < span 4) (hm : m < 0x80000000) (h : n ≠ m) : signed32 n ≠ m := by
  have hspan : span 4 = 0x100000000 := by decide
  rw [signed32]
  split <;> omega

theorem agrees_decodeHeader (bytes : List UInt8) :
    Agrees bytes decodeHeader decodeHeader (.ofBytes bytes) := by
  have hstart : (Cursor.ofBytes bytes).At bytes := ⟨Nat.zero_le _, rfl⟩
  refine (agrees_take hstart 4).bind fun found c hfound hat => ?_
  obtain ⟨_, ⟨rfl, hlen⟩, hskip⟩ := (parses_take 4 _ found c).1 hfound
  have hrest : bytes = found ++ c.rest := hskip.rest
  have hoffset : c.offset = 4 := by rw [hskip.offset, hlen]; rfl
  dsimp only
  split
  · next hmagic =>
    have hprefix : found <+: bytes := hrest ▸ List.prefix_append _ _
    have htrue : Corruption.Truthful bytes ⟨0, .badMagic found⟩ :=
      ⟨Nat.zero_le _, rfl, hlen, hprefix, hmagic⟩
    exact agrees_failAt htrue
  refine (agrees_word hat 4).bind fun v c' hv hat' => ?_
  split
  · next hversion =>
    obtain ⟨_, ⟨hsmall, rfl⟩, hskip'⟩ := (parses_word 4 c v c').1 hv
    have hword : (bytes.drop 4).take 4 = bigEndian 4 v := by
      rw [← hoffset, ← hat.rest, hskip'.rest, hoffset]
      exact List.take_left' (length_bigEndian 4 v)
    have hend : 8 ≤ bytes.length := by
      have hinside := hat'.inside
      rw [hskip'.offset, hoffset, length_bigEndian] at hinside
      exact hinside
    have hvalue : signed32 v = signed32 (ofBigEndian ((bytes.drop 4).take 4)) := by
      rw [hword, ofBigEndian_bigEndian hsmall]
    have hfour : 4 ≤ bytes.length := by omega
    have htrue : Corruption.Truthful bytes ⟨4, .unsupportedVersion (signed32 v)⟩ :=
      ⟨hfour, rfl, hend, hvalue, signed32_ne hsmall (by decide) hversion⟩
    exact agrees_failAt htrue
  · exact agrees_pure hat' ()

theorem agrees_decodeBody (bytes : List UInt8) :
    Agrees bytes (decodeBody true) (decodeBody true) (.ofBytes bytes) :=
  (agrees_decodeHeader bytes).bind fun _ _ _ hat => (agrees_word hat 2).bind fun count _ _ hat =>
    (agrees_remaining hat).bind fun _ _ _ hat => (agrees_reserve hat .definitions _).bind fun _ _ _ hat =>
      agrees_repeatRead (fun _ => agrees_decodeDefinition) hat [] count

theorem agrees_decodeEnd (h : c.At file) : Agrees file decodeEnd decodeEnd c := by
  refine (agrees_remaining h).bind fun left c' hleft hat => ?_
  cases hleft
  split
  · next hmore =>
    refine agrees_offset ((agrees_remaining h).bind fun left c' hleft hat => ?_)
    cases hleft
    have hinside := h.inside
    have hend : c.offset + c.left = file.length := by rw [h.left_eq]; omega
    exact agrees_failAt ⟨hinside, hmore, hend⟩
  · exact agrees_pure h ()

theorem agrees_decodeFile (bytes : List UInt8) :
    Agrees bytes (decodeFile true) (decodeFile true) (.ofBytes bytes) :=
  (agrees_decodeBody bytes).bind fun ds _ _ hat => (agrees_decodeEnd hat).bind fun _ _ _ hat =>
    agrees_pure hat ds

theorem seekDefinitions_eq (bytes : List UInt8) :
    seekDefinitions bytes = (readDefinitions true bytes).mapError .corrupt := by
  have hseek : seekDefinitions bytes =
    Prod.fst <$> (decodeFile true : Seek (List Definition)) bytes (Cursor.ofBytes bytes).offset := rfl
  rw [readDefinitions_eq, hseek]
  rcases agrees_decodeFile bytes with ⟨ds, c, hok, -, hok'⟩ | ⟨e, herr, -, herr'⟩
  · rw [hok, hok']
    rfl
  · rw [herr, herr']
    rfl

theorem truthful_of_readDefinitions {bytes : List UInt8} {e : Corruption}
    (h : readDefinitions true bytes = .error e) : e.Truthful bytes := by
  rw [readDefinitions_eq] at h
  rcases agrees_decodeFile bytes with ⟨ds, c, hok, -, -⟩ | ⟨e', herr, htrue, -⟩
  · rw [hok] at h
    cases h
  · rw [herr] at h
    cases h
    exact htrue

/-- Whatever the bytes, reading them by position never leaves the file and never counts below zero; it is the
reading that decoders do; and what a decoder says is corrupt is so, at the byte it names. -/
theorem decodeAll_truthful (decoder : Decoder) (bytes : List UInt8) :
    (∀ b, seekDefinitions bytes ≠ .error (.breach b)) ∧
      seekDefinitions bytes = (readDefinitions true bytes).mapError .corrupt ∧
      ∀ e, decoder.decodeAll bytes = .error (.corrupt e) → e.Truthful bytes := by
  refine ⟨?_, seekDefinitions_eq bytes, ?_⟩
  · intro b h
    rw [seekDefinitions_eq] at h
    obtain ⟨e, -, he⟩ := mapError_eq_error_iff.1 h
    cases he
  · intro e h
    exact truthful_of_readDefinitions (Decoder.decodeAll_eq_corrupt_iff.1 h)

/-- A rate that there is none of, and a constant that the pool does not have. -/
theorem decodeAll_truthful_odd :
    decodeAll (oddBytes.set 31 9) = .error (.corrupt ⟨31, .unknownRate 9⟩) ∧
      (oddBytes.set 31 9)[31]? = some 9 ∧
      decodeAll (oddBytes.set 76 7) = .error (.corrupt ⟨13, .invalid (.constantOutOfRange 1 7 2)⟩) ∧
      ∃ g record, record <+: (oddBytes.set 76 7).drop 13 ∧ GraphRecord g record ∧
        g.validate = .error (.constantOutOfRange 1 7 2) := by
  have hrate : decodeAll (oddBytes.set 31 9) = .error (.corrupt ⟨31, .unknownRate 9⟩) := by cbv
  have hconstant : decodeAll (oddBytes.set 76 7) =
      .error (.corrupt ⟨13, .invalid (.constantOutOfRange 1 7 2)⟩) := by cbv
  exact ⟨hrate, ((decodeAll_truthful {} _).2.2 _ hrate).describes.1, hconstant,
    ((decodeAll_truthful {} _).2.2 _ hconstant).describes⟩

end SoundGraph.Wire
