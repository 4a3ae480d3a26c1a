import Mathlib.Data.List.Infix
import RadioStack.Lib.CStrings

/-!
# Titles for listeners

The block that `mp3_set_title` of `format_mp3.c` builds from the tags of a source, and the title that
`filter_shoutcast_metadata` reads in a block.
-/

namespace RadioStack.Icecast.SetTitle

/-- The text `StreamTitle='`. -/
def streamtitle : List UInt8 := [83, 116, 114, 101, 97, 109, 84, 105, 116, 108, 101, 61, 39]

/-- The text `StreamUrl='`. -/
def streamurl : List UInt8 := [83, 116, 114, 101, 97, 109, 85, 114, 108, 61, 39]

/-- The quote and the semicolon. -/
def quote : List UInt8 := [39, 59]

def dash : List UInt8 := [32, 45, 32]

/-- The comments `ARTIST`, `TITLE` and `URL` of a source, and the URL in its stream from `StreamUrl='` on. -/
structure Tags where
  artist : Option (List UInt8)
  title : Option (List UInt8)
  url : Option (List UInt8)
  inlineUrl : Option (List UInt8)

def strlen (s : Option (List UInt8)) : Nat := (s.getD []).length

/-- The message length, which is kept in an `unsigned int`. -/
def messageLen (t : Tags) : Nat :=
  let len := streamtitle.length + 1 + 2 + strlen t.artist + strlen t.title +
    if t.artist.isSome ∧ t.title.isSome then 3 else 0
  let len := match t.inlineUrl, t.url with
    | some inlineUrl, _ =>
      match strstr inlineUrl quote with
      | some i => len + (i + 2)
      | none => len
    | none, some url => len + (url.length + streamurl.length + 2)
    | none, none => len
  len % 4294967296

inductive Built where
  | tooLong
  | block (data : List UInt8) (title : Option (List UInt8))
  | overrun
deriving DecidableEq

/-- A text printed into a buffer at a place, with `size` bytes left for it. -/
def printAt (data : List UInt8) (pos size : Nat) (text : List UInt8) : List UInt8 :=
  data.take pos ++ snprintf size text ++ data.drop (pos + (snprintf size text).length)

/-- What `snprintf` returns. -/
def printed (text : List UInt8) : Int := if text.length ≤ 2147483647 then text.length else -1

def filterShoutcastMetadata (metadata : List UInt8) : Option (List UInt8) :=
  let metadata := metadata.tail
  if streamtitle <+: metadata then
    (strstr (metadata.drop 13) quote).map fun len => (metadata.drop 13).take len
  else none

/-- An artist without a title is left out. -/
def shown (t : Tags) : List UInt8 :=
  match t.artist, t.title with
  | some artist, some title => artist ++ dash ++ title
  | _, some title => title
  | _, none => []

def mp3SetTitle (t : Tags) : Built :=
  let len := messageLen t
  if 255 * 16 < len then .tooLong
  else
    let lenByte := (((len + 4294967295) % 4294967296 / 16 + 1) % 256).toUInt8
    let size := lenByte.toNat * 16 + 1
    let title := lenByte :: (streamtitle ++ shown t ++ quote)
    let data := printAt (List.replicate size 0) 0 size title
    let r := printed title
    let built (data : List UInt8) : Built := .block data (filterShoutcastMetadata data)
    if 0 < r then
      match t.inlineUrl, t.url with
      | some inlineUrl, _ =>
        let urllen : Int := match strstr inlineUrl quote with
          | some i => i + 2
          | none => size
        if urllen < size - r then
          built (printAt data r.toNat (size - r.toNat) (streamurl ++ inlineUrl.drop 11 ++ quote))
        else built data
      | none, some url =>
        if (size : Int) < r then .overrun
        else built (printAt data r.toNat (size - r.toNat) (streamurl ++ url ++ quote))
      | none, none => built data
    else built data

/-! ## The round trip -/

def titleText (artist title : Option (List UInt8)) : List UInt8 :=
  match artist, title with
  | some artist, some title => artist ++ dash ++ title
  | some artist, none => artist
  | none, some title => title
  | none, none => []

def urlText : Option (List UInt8) → List UInt8
  | some url => streamurl ++ url ++ quote
  | none => []

/-- The whole text of a block. -/
def text (artist title url : Option (List UInt8)) : List UInt8 :=
  streamtitle ++ titleText artist title ++ quote ++ urlText url

/-- The text is too long, or the block holds it, as long as its first byte says, and gives the title back. -/
def RoundTrips (artist title url : Option (List UInt8)) : Prop :=
  mp3SetTitle ⟨artist, title, url, none⟩ = .tooLong ∧ 255 * 16 < (text artist title url).length + 1 ∨
    ∃ (k : UInt8) (n : Nat), (text artist title url).length + n = 16 * k.toNat ∧
      mp3SetTitle ⟨artist, title, url, none⟩ =
        .block (k :: (text artist title url ++ List.replicate n 0)) (some (titleText artist title))

theorem length_titleText (artist title : Option (List UInt8)) :
    (titleText artist title).length =
      strlen artist + strlen title + if artist.isSome ∧ title.isSome then 3 else 0 := by
  cases artist <;> cases title <;> simp [titleText, strlen, dash]
  omega

theorem messageLen_eq (artist title url : Option (List UInt8)) :
    messageLen ⟨artist, title, url, none⟩ = ((text artist title url).length + 1) % 4294967296 := by
  simp only [messageLen, text, List.length_append, length_titleText]
  cases url with
  | none => simp [streamtitle, quote, urlText]; omega
  | some url => simp [streamtitle, streamurl, quote, urlText]; omega

theorem shown_cases (artist title url : Option (List UInt8)) :
    shown ⟨artist, title, url, none⟩ = titleText artist title ∨
      shown ⟨artist, title, url, none⟩ = [] ∧ title = none := by
  cases artist <;> cases title <;> simp [shown, titleText]

theorem shown_eq_titleText_iff (artist title url : Option (List UInt8)) :
    shown ⟨artist, title, url, none⟩ = titleText artist title ↔ (title = none → strlen artist = 0) := by
  cases artist <;> cases title <;> simp [shown, titleText, strlen, eq_comm]

theorem printAt_zeros (front text : List UInt8) {n : Nat} (h : text.length < n) :
    printAt (front ++ List.replicate n 0) front.length n text =
      front ++ text ++ List.replicate (n - text.length) 0 := by
  have hPrinted : snprintf n text = text ++ [0] := by
    rw [snprintf, if_neg (by omega), List.take_of_length_le (by omega)]
  have hZeros : List.replicate (n - text.length) (0 : UInt8) = 0 :: List.replicate (n - (text.length + 1)) 0 := by
    rw [← List.replicate_succ]
    congr 1
    omega
  rw [printAt, hPrinted, hZeros, List.take_left' rfl, ← List.drop_drop, List.drop_left' rfl, List.drop_replicate]
  simp

/-- What is shown of a text that fits is followed by NULs only. -/
theorem mp3SetTitle_of_fits {artist title url : Option (List UInt8)}
    (hFits : (text artist title url).length < 4080) :
    ∃ (k : UInt8) (n : Nat), 0 < n ∧
      (streamtitle ++ shown ⟨artist, title, url, none⟩ ++ quote ++ urlText url).length + n = 16 * k.toNat ∧
      mp3SetTitle ⟨artist, title, url, none⟩ =
        .block (k :: (streamtitle ++ shown ⟨artist, title, url, none⟩ ++ quote ++ urlText url ++
            List.replicate n 0))
          (filterShoutcastMetadata (k :: (streamtitle ++ shown ⟨artist, title, url, none⟩ ++ quote ++
            urlText url ++ List.replicate n 0))) := by
  have hLen : messageLen ⟨artist, title, url, none⟩ = (text artist title url).length + 1 := by
    rw [messageLen_eq, Nat.mod_eq_of_lt (by omega)]
  have hShown : (shown ⟨artist, title, url, none⟩).length ≤ (titleText artist title).length := by
    obtain h | ⟨h, -⟩ := shown_cases artist title url
    · rw [h]
    · simp [h]
  have hText : (text artist title url).length =
      15 + (titleText artist title).length + (urlText url).length := by
    simp [text, streamtitle, quote]
    omega
  obtain ⟨k, hk⟩ : ∃ k : UInt8, k =
      ((((text artist title url).length + 1 + 4294967295) % 4294967296 / 16 + 1) % 256).toUInt8 := ⟨_, rfl⟩
  have hToNat : k.toNat = (text artist title url).length / 16 + 1 := by
    rw [hk, UInt8.toNat_ofNat']
    omega
  generalize hLine : k :: (streamtitle ++ shown ⟨artist, title, url, none⟩ ++ quote) = line
  have hLength : line.length = 16 + (shown ⟨artist, title, url, none⟩).length := by
    rw [← hLine]
    simp [streamtitle, quote]
    omega
  have hFirst : printAt (List.replicate (k.toNat * 16 + 1) 0) 0 (k.toNat * 16 + 1) line =
      line ++ List.replicate (k.toNat * 16 + 1 - line.length) 0 :=
    printAt_zeros [] line (by omega)
  refine ⟨k, k.toNat * 16 + 1 - line.length - (urlText url).length, by omega, ?_, ?_⟩
  · simp [streamtitle, quote]
    omega
  · have hR : printed line = line.length := if_pos (by omega)
    rw [mp3SetTitle, hLen]
    simp only [← hk, hLine, hFirst, hR]
    rw [if_neg (by omega), if_pos (by omega)]
    cases url with
    | none => simp [← hLine, urlText]
    | some url =>
      have hSecond := printAt_zeros line (urlText (some url)) (n := k.toNat * 16 + 1 - line.length) (by omega)
      simp only [Int.toNat_natCast]
      rw [if_neg (by omega)]
      simp only [urlText] at hSecond
      rw [hSecond, ← hLine]
      simp [urlText]

/-- The quote and the semicolon at the end of a title are the first ones iff it holds none. -/
theorem strstr_quote_iff {title rest : List UInt8} (hTitle : 0 ∉ title) (hRest : 0 ∉ rest) :
    strstr (title ++ (quote ++ rest)) quote = some title.length ↔ ¬ quote <:+: title := by
  have hMem : 0 ∉ title ++ (quote ++ rest) := by
    simp [hTitle, hRest, quote]
  rw [strstr_eq_some_iff hMem]
  constructor
  · rintro ⟨-, -, hBefore⟩ ⟨front, back, rfl⟩
    refine hBefore front.length (by simp [quote]) ?_
    exact ⟨back ++ (quote ++ rest), by simp⟩
  · intro hNone
    refine ⟨by simp, ⟨rest, by simp⟩, fun j hj hAt => ?_⟩
    rw [List.drop_append_of_le_length (by omega)] at hAt
    cases hDrop : title.drop j with
    | nil => exact absurd (List.drop_eq_nil_iff.mp hDrop) (by omega)
    | cons b tail =>
      cases tail with
      | nil =>
        rw [hDrop] at hAt
        simp [quote] at hAt
      | cons c tail =>
        rw [hDrop] at hAt
        simp only [quote, List.cons_append, List.cons_prefix_cons, List.nil_prefix, and_true] at hAt
        exact hNone ⟨title.take j, tail, by rw [quote, hAt.1, hAt.2, List.append_assoc, List.cons_append,
          List.cons_append, List.nil_append, ← hDrop, List.take_append_drop]⟩

theorem filterShoutcastMetadata_eq_some_iff {title rest : List UInt8} (hTitle : 0 ∉ title) (hRest : 0 ∉ rest)
    (k : UInt8) {n : Nat} (hn : 0 < n) :
    filterShoutcastMetadata (k :: (streamtitle ++ title ++ quote ++ rest ++ List.replicate n 0)) = some title ↔
      ¬ quote <:+: title := by
  obtain ⟨m, rfl⟩ := Nat.exists_eq_succ_of_ne_zero hn.ne'
  have hMem : 0 ∉ title ++ (quote ++ rest) := by
    simp [hTitle, hRest, quote]
  have hText : streamtitle ++ title ++ quote ++ rest ++ List.replicate (m + 1) 0 =
      streamtitle ++ (title ++ (quote ++ rest) ++ 0 :: List.replicate m 0) := by
    simp [List.replicate_succ]
  have hDrop : (streamtitle ++ (title ++ (quote ++ rest) ++ 0 :: List.replicate m 0)).drop 13 =
      title ++ (quote ++ rest) ++ 0 :: List.replicate m 0 := List.drop_left' rfl
  rw [hText, filterShoutcastMetadata, List.tail_cons, if_pos (List.prefix_append _ _), hDrop,
    strstr_append_zero hMem, ← strstr_quote_iff hTitle hRest]
  constructor
  · rw [Option.map_eq_some_iff]
    rintro ⟨i, hFound, hTake⟩
    have hLe := strstr_length_le hMem hFound
    have hLength := congrArg List.length hTake
    rw [List.length_take, Nat.min_eq_left (by simp at hLe ⊢; omega)] at hLength
    rw [hFound, hLength]
  · intro hFound
    rw [hFound, Option.map_some, List.append_assoc, List.take_left' rfl]

theorem filterShoutcastMetadata_quote (k : UInt8) (rest : List UInt8) :
    filterShoutcastMetadata (k :: (streamtitle ++ quote ++ rest)) = some [] := by
  have hDrop : (streamtitle ++ quote ++ rest).drop 13 = quote ++ rest := by
    rw [List.append_assoc]
    exact List.drop_left' rfl
  rw [filterShoutcastMetadata, List.tail_cons, List.append_assoc, if_pos (List.prefix_append _ _),
    ← List.append_assoc, hDrop, strstr]
  simp [cstring, quote, List.findIdx?_cons]

theorem zero_notMem_titleText {artist title : Option (List UInt8)} (hArtist : ∀ s ∈ artist, 0 ∉ s)
    (hTitle : ∀ s ∈ title, 0 ∉ s) : 0 ∉ titleText artist title := by
  cases artist <;> cases title <;> simp_all [titleText, dash]

theorem zero_notMem_urlText {url : Option (List UInt8)} (hUrl : ∀ s ∈ url, 0 ∉ s) : 0 ∉ urlText url := by
  cases url <;> simp_all [urlText, streamurl, quote]

theorem roundTrips_of_fits_iff {artist title url : Option (List UInt8)} (hArtist : ∀ s ∈ artist, 0 ∉ s)
    (hTitle : ∀ s ∈ title, 0 ∉ s) (hUrl : ∀ s ∈ url, 0 ∉ s) (hFits : (text artist title url).length < 4080) :
    RoundTrips artist title url ↔
      (title = none → strlen artist = 0) ∧ ¬ quote <:+: titleText artist title := by
  obtain ⟨k, n, hn, hLength, hBuilt⟩ := mp3SetTitle_of_fits hFits
  have hFilter := filterShoutcastMetadata_eq_some_iff (zero_notMem_titleText hArtist hTitle)
    (zero_notMem_urlText hUrl) k hn
  rw [← shown_eq_titleText_iff artist title url, RoundTrips, hBuilt]
  constructor
  · rintro (⟨hLong, -⟩ | ⟨j, m, -, hBlock⟩)
    · cases hLong
    · obtain ⟨hData, hGiven⟩ := Built.block.inj hBlock
      have hShown : shown ⟨artist, title, url, none⟩ = titleText artist title := by
        obtain h | ⟨h, -⟩ := shown_cases artist title url
        · exact h
        · rw [h] at hGiven ⊢
          simp only [List.append_nil, List.append_assoc] at hGiven
          rw [← List.append_assoc, filterShoutcastMetadata_quote] at hGiven
          exact Option.some.inj hGiven
      rw [hShown] at hGiven
      exact ⟨hShown, hFilter.mp hGiven⟩
  · rintro ⟨hShown, hNone⟩
    rw [hShown] at hLength ⊢
    exact .inr ⟨k, n, hLength, by rw [hFilter.mpr hNone, text]⟩

theorem mp3SetTitle_eq_tooLong_iff (t : Tags) : mp3SetTitle t = .tooLong ↔ 4080 < messageLen t := by
  constructor
  · intro hRejected
    by_contra hFits
    obtain ⟨artist, title, url, inlineUrl⟩ := t
    rw [mp3SetTitle, if_neg hFits] at hRejected
    cases inlineUrl with
    | some inlineUrl =>
      dsimp only at hRejected
      split_ifs at hRejected
    | none =>
      cases url with
      | some url =>
        dsimp only at hRejected
        split_ifs at hRejected
      | none =>
        dsimp only at hRejected
        split_ifs at hRejected
  · intro hLong
    rw [mp3SetTitle, if_pos hLong]

/-- A text that is too long is told from one that fits in 32 bits only. -/
theorem roundTrips_of_long_iff {artist title url : Option (List UInt8)}
    (hLong : 4080 ≤ (text artist title url).length) :
    RoundTrips artist title url ↔ 4080 < ((text artist title url).length + 1) % 4294967296 := by
  have hRejects : mp3SetTitle ⟨artist, title, url, none⟩ = .tooLong ↔
      4080 < ((text artist title url).length + 1) % 4294967296 := by
    rw [mp3SetTitle_eq_tooLong_iff, messageLen_eq]
  rw [RoundTrips, hRejects]
  constructor
  · rintro (⟨h, -⟩ | ⟨k, n, hLength, -⟩)
    · exact h
    · have hByte := k.toNat_lt
      omega
  · intro h
    exact .inl ⟨h, by omega⟩

/-- The block of a title holds all of it and gives it back iff a title comes with the artist, the text of both
has no quote before a semicolon, and the length fits in 32 bits. -/
theorem roundTrips_iff (artist title url : Option (List UInt8)) (hArtist : ∀ s ∈ artist, 0 ∉ s)
    (hTitle : ∀ s ∈ title, 0 ∉ s) (hUrl : ∀ s ∈ url, 0 ∉ s) :
    RoundTrips artist title url ↔
      ((text artist title url).length < 4080 →
        (title = none → strlen artist = 0) ∧ ¬ quote <:+: titleText artist title) ∧
      (4080 ≤ (text artist title url).length →
        4080 < ((text artist title url).length + 1) % 4294967296) := by
  obtain hFits | hLong := Nat.lt_or_ge (text artist title url).length 4080
  · rw [roundTrips_of_fits_iff hArtist hTitle hUrl hFits]
    simp [hFits, hFits.not_ge]
  · rw [roundTrips_of_long_iff hLong]
    simp [hLong, hLong.not_gt]

/-- The witness: the artist `ab` with the title `cd`. -/
theorem roundTrips_iff_both :
    RoundTrips (some [97, 98]) (some [99, 100]) none := by
  refine (roundTrips_iff (some [97, 98]) (some [99, 100]) none (by simp) (by simp) (by simp)).mpr ⟨fun _ => ?_, ?_⟩
  · refine ⟨by simp, ?_⟩
    decide
  · intro h
    simp [text, titleText, streamtitle, dash, quote, urlText] at h

/-- The artist `ab` alone is left out of the block. -/
theorem not_roundTrips_artist :
    ¬ ∀ artist title url : Option (List UInt8), (∀ s ∈ artist, 0 ∉ s) → (∀ s ∈ title, 0 ∉ s) →
      (∀ s ∈ url, 0 ∉ s) → RoundTrips artist title url := by
  intro h
  have hBlock := h (some [97, 98]) none none (by simp) (by simp) (by simp)
  rw [roundTrips_of_fits_iff (by simp) (by simp) (by simp)
    (by simp [text, titleText, streamtitle, quote, urlText])] at hBlock
  simpa [strlen] using hBlock.1

end RadioStack.Icecast.SetTitle
