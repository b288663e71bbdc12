/-
Module: Ziftrcoin.Lib.Codec
Purpose: Writers and readers of a format.  A writer turns a value into symbols;
  a reader takes a value off the front of a string of symbols or fails.  Two
  properties tie them together, and each is proved field by field along the
  reader's `do` block.
Trusted boundary: none
Main exports: Reader, Reader.take, Reader.many
-/
import Ziftrcoin.Lib.Outcome

namespace Ziftrcoin.Lib

open Outcome

variable {ε σ : Type} {α β γ : Type}

/-- A reader of values over strings of `σ` that can fail with an `ε`. -/
abbrev Reader (ε σ : Type) (α : Type) := StateT (List σ) (Except ε) α

namespace Reader

def fail (e : ε) : Reader ε σ α := fun _ => .error e

/-- The next `n` symbols; `e` when there are fewer. -/
def take (e : ε) (n : Nat) : Reader ε σ (List σ) := fun bs =>
  if n ≤ bs.length then .ok (bs.take n, bs.drop n) else .error e

/-- `n` values one after the other. -/
def many (read : Reader ε σ α) : Nat → Reader ε σ (List α)
  | 0 => pure []
  | n + 1 => do
      let a ← read
      let as ← many read n
      return a :: as

/-- A list of `n` values read in blocks of at most `k`, where `read m` reads
the next `m` of them; `as` is what has been read, `i` its length. -/
def inBlocks (read : Nat → Reader ε σ (List α)) (k : Nat) (hk : 0 < k)
    (n i : Nat) (as : List α) : Reader ε σ (List α) :=
  if i < n then do
    let block ← read (min (n - i) k)
    inBlocks read k hk n (i + min (n - i) k) (as ++ block)
  else pure as
termination_by n - i

/-! ### Running a reader -/

theorem bind_run (read : Reader ε σ α) (next : α → Reader ε σ β) (bs : List σ) :
    (read >>= next) bs = (read bs).bind fun r => next r.1 r.2 := rfl

@[simp] theorem pure_run (a : α) (bs : List σ) :
    (pure a : Reader ε σ α) bs = .ok (a, bs) := rfl

@[simp] theorem fail_run (e : ε) (bs : List σ) :
    (fail e : Reader ε σ α) bs = .error e := rfl

/-- A sequence goes on where its first part stopped reading. -/
theorem bind_run_ok {read : Reader ε σ α} {bs rest : List σ} {a : α}
    (h : read bs = .ok (a, rest)) (next : α → Reader ε σ β) :
    (read >>= next) bs = next a rest := by
  rw [bind_run, h]
  rfl

theorem bind_run_eq_ok {read : Reader ε σ α} {next : α → Reader ε σ β}
    {bs rest : List σ} {b : β} :
    (read >>= next) bs = .ok (b, rest) ↔
      ∃ a mid, read bs = .ok (a, mid) ∧ next a mid = .ok (b, rest) := by
  rw [bind_run]
  cases read bs with
  | error e => simp [Except.bind]
  | ok r =>
      obtain ⟨a, mid⟩ := r
      simp [Except.bind]

theorem take_run_append (e : ε) (as rest : List σ) :
    take e as.length (as ++ rest) = .ok (as, rest) := by
  simp [take]

theorem take_run_eq_ok {e : ε} {n : Nat} {bs as rest : List σ} :
    take e n bs = .ok (as, rest) ↔ as.length = n ∧ bs = as ++ rest := by
  constructor
  · intro h
    unfold take at h
    split_ifs at h with hn
    obtain ⟨rfl, rfl⟩ := Prod.mk.inj (Except.ok.inj h)
    exact ⟨List.length_take_of_le hn, (List.take_append_drop n bs).symm⟩
  · rintro ⟨rfl, rfl⟩
    exact take_run_append e as rest

/-! ### Reading in blocks -/

/-- A reader of lists that can be interrupted after any number of elements. -/
structure Divides (read : Nat → Reader ε σ (List α)) : Prop where
  zero : read 0 = pure []
  add : ∀ m n, read (m + n) = do
    let as ← read m
    let as' ← read n
    return as ++ as'

theorem many_divides (read : Reader ε σ α) : Divides (many read) where
  zero := rfl
  add m n := by
    induction m with
    | zero => simp [many]
    | succ m ih => simp [Nat.succ_add, many, ih]

theorem take_divides (e : ε) : Divides (take e : Nat → Reader ε σ (List σ)) where
  zero := by
    funext bs
    simp [take]
  add m n := by
    funext bs
    rw [bind_run]
    unfold take
    by_cases hm : m ≤ bs.length
    · by_cases hn : n ≤ bs.length - m
      · have hmn : m + n ≤ bs.length := by omega
        simp [hm, hn, hmn, bind_run, Except.bind, List.take_add]
      · have hmn : ¬ m + n ≤ bs.length := by omega
        simp [hm, hn, hmn, bind_run, Except.bind]
    · have hmn : ¬ m + n ≤ bs.length := by omega
      simp [hm, hmn, Except.bind]

/-- Reading in blocks is reading at once. -/
theorem Divides.inBlocks {read : Nat → Reader ε σ (List α)} (h : Divides read)
    {k : Nat} (hk : 0 < k) (n i : Nat) (as : List α) :
    Reader.inBlocks read k hk n i as = (do return as ++ (← read (n - i))) := by
  induction i, as using Reader.inBlocks.induct (k := k) hk n with
  | case1 i as hi ih =>
      have hsplit : n - i = min (n - i) k + (n - (i + min (n - i) k)) := by omega
      rw [Reader.inBlocks, if_pos hi, bind_congr ih]
      conv_rhs => rw [hsplit, h.add]
      simp
  | case2 i as hi =>
      have hzero : n - i = 0 := by omega
      rw [Reader.inBlocks, if_neg hi, hzero, h.zero]
      simp

theorem Divides.inBlocks_all {read : Nat → Reader ε σ (List α)} (h : Divides read)
    {k : Nat} (hk : 0 < k) (n : Nat) : Reader.inBlocks read k hk n 0 [] = read n := by
  rw [h.inBlocks]
  simp

end Reader

/-! ### Writers and readers -/

/-- What is written of a valid value is read back, and nothing after it is
touched. -/
def RoundTrips (Valid : α → Prop) (write : α → List σ) (read : Reader ε σ α) :
    Prop :=
  ∀ a, Valid a → ∀ rest, read (write a ++ rest) = .ok (a, rest)

/-- What can be read is what is written of the valid value it is read as. -/
def Canonical (Valid : α → Prop) (write : α → List σ) (read : Reader ε σ α) :
    Prop :=
  ∀ bs a rest, read bs = .ok (a, rest) → Valid a ∧ bs = write a ++ rest

variable {Valid : α → Prop} {write : α → List σ} {read : Reader ε σ α}

/-- Two strings read as one value begin alike, and their rests are what follows
there. -/
theorem Canonical.same_encoding (h : Canonical Valid write read) {a : α}
    {bs bs' rest rest' : List σ} (hread : read bs = .ok (a, rest))
    (hread' : read bs' = .ok (a, rest')) :
    ∃ code, bs = code ++ rest ∧ bs' = code ++ rest' :=
  ⟨write a, (h bs a rest hread).2, (h bs' a rest' hread').2⟩

/-! ### Records

A record is written field by field.  Peeling off its first field leaves the
record to be read from the others, with the value of that field known. -/

section Records

variable {Valid' : γ → Prop} {field : γ → α} {writeRest : γ → List σ}
  {next : α → Reader ε σ γ}

theorem RoundTrips.bind (h : RoundTrips Valid write read)
    (hvalid : ∀ c, Valid' c → Valid (field c))
    (hnext : ∀ a, RoundTrips (fun c => Valid' c ∧ field c = a) writeRest (next a)) :
    RoundTrips Valid' (fun c => write (field c) ++ writeRest c) (read >>= next) := by
  intro c hc rest
  have hread := h (field c) (hvalid c hc) (writeRest c ++ rest)
  rw [List.append_assoc, Reader.bind_run_ok hread]
  exact hnext (field c) c ⟨hc, rfl⟩ rest

theorem Canonical.bind (h : Canonical Valid write read)
    (hnext : ∀ a, Valid a →
      Canonical (fun c => Valid' c ∧ field c = a) writeRest (next a)) :
    Canonical Valid' (fun c => write (field c) ++ writeRest c) (read >>= next) := by
  intro bs c rest hread
  obtain ⟨a, mid, ha, hc⟩ := Reader.bind_run_eq_ok.mp hread
  obtain ⟨hvalid, rfl⟩ := h bs a mid ha
  obtain ⟨⟨hvalid', rfl⟩, rfl⟩ := hnext a hvalid mid c rest hc
  exact ⟨hvalid', (List.append_assoc _ _ _).symm⟩

/-- Once all fields are known, the record is. -/
theorem RoundTrips.pure {c₀ : γ} (h : ∀ c, Valid' c → c = c₀) :
    RoundTrips Valid' (fun _ => []) (Pure.pure c₀ : Reader ε σ γ) := by
  intro c hc rest
  rw [h c hc]
  rfl

theorem Canonical.pure {c₀ : γ} (h : Valid' c₀) :
    Canonical Valid' (fun _ => []) (Pure.pure c₀ : Reader ε σ γ) := by
  intro bs c rest hread
  obtain ⟨rfl, rfl⟩ := Prod.mk.inj (Except.ok.inj hread)
  exact ⟨h, rfl⟩

end Records

/-! ### Lists -/

theorem RoundTrips.many (h : RoundTrips Valid write read) (n : Nat) :
    RoundTrips (fun as => as.length = n ∧ ∀ a ∈ as, Valid a)
      (List.flatMap write) (Reader.many read n) := by
  intro as has rest
  obtain ⟨rfl, hvalid⟩ := has
  induction as with
  | nil => rfl
  | cons a as ih =>
      have hhead := h a (hvalid a List.mem_cons_self) (as.flatMap write ++ rest)
      have htail := ih fun b hb => hvalid b (List.mem_cons_of_mem a hb)
      rw [List.length_cons, Reader.many, List.flatMap_cons, List.append_assoc,
        Reader.bind_run_ok hhead, Reader.bind_run_ok htail, Reader.pure_run]

theorem Canonical.many (h : Canonical Valid write read) (n : Nat) :
    Canonical (fun as => as.length = n ∧ ∀ a ∈ as, Valid a)
      (List.flatMap write) (Reader.many read n) := by
  induction n with
  | zero =>
      intro bs as rest hread
      obtain ⟨rfl, rfl⟩ := Prod.mk.inj (Except.ok.inj hread)
      exact ⟨⟨rfl, by simp⟩, rfl⟩
  | succ n ih =>
      intro bs as rest hread
      obtain ⟨a, mid, ha, hread⟩ := Reader.bind_run_eq_ok.mp hread
      obtain ⟨tail, mid', htail, hread⟩ := Reader.bind_run_eq_ok.mp hread
      obtain ⟨rfl, rfl⟩ := Prod.mk.inj (Except.ok.inj hread)
      obtain ⟨hvalid, rfl⟩ := h bs a mid ha
      obtain ⟨⟨hlength, hvalids⟩, rfl⟩ := ih mid tail _ htail
      refine ⟨⟨by rw [List.length_cons, hlength], ?_⟩, ?_⟩
      · exact List.forall_mem_cons.mpr ⟨hvalid, hvalids⟩
      · rw [List.flatMap_cons, List.append_assoc]

/-! ### Both properties at once -/

/-- The reader accepts exactly the encodings of valid values. -/
structure Decodes (Valid : α → Prop) (write : α → List σ) (read : Reader ε σ α) :
    Prop where
  roundTrips : RoundTrips Valid write read
  canonical : Canonical Valid write read

namespace Decodes

theorem take (e : ε) (n : Nat) :
    Decodes (fun as : List σ => as.length = n) id (Reader.take e n) where
  roundTrips := by
    rintro as rfl rest
    exact Reader.take_run_append e as rest
  canonical _ _ _ hread := Reader.take_run_eq_ok.mp hread

/-- Nothing is written where there is one value only. -/
theorem pure (a : α) : Decodes (· = a) (fun _ => ([] : List σ)) (Pure.pure a : Reader ε σ α) :=
  ⟨.pure fun _ h => h, .pure rfl⟩

theorem many (h : Decodes Valid write read) (n : Nat) :
    Decodes (fun as => as.length = n ∧ ∀ a ∈ as, Valid a) (List.flatMap write)
      (Reader.many read n) :=
  ⟨h.roundTrips.many n, h.canonical.many n⟩

section Records

variable {Valid' : γ → Prop} (field : γ → α) {writeRest : γ → List σ}
  {next : α → Reader ε σ γ}

theorem bind (h : Decodes Valid write read)
    (hvalid : ∀ c, Valid' c → Valid (field c))
    (hnext : ∀ a, Valid a →
      Decodes (fun c => Valid' c ∧ field c = a) writeRest (next a)) :
    Decodes Valid' (fun c => write (field c) ++ writeRest c) (read >>= next) where
  roundTrips := by
    refine h.roundTrips.bind hvalid fun a c hc rest => ?_
    exact (hnext a (hc.2 ▸ hvalid c hc.1)).roundTrips c hc rest
  canonical := h.canonical.bind fun a ha => (hnext a ha).canonical

/-- The last field of a record, or a field that is the record in another form. -/
theorem bind_pure {mk : α → γ} (h : Decodes Valid write read)
    (hmk : ∀ a, Valid a → Valid' (mk a) ∧ field (mk a) = a)
    (hfield : ∀ c, Valid' c → Valid (field c) ∧ mk (field c) = c) :
    Decodes Valid' (fun c => write (field c)) (read >>= fun a => Pure.pure (mk a)) where
  roundTrips := by
    intro c hc rest
    rw [Reader.bind_run_ok (h.roundTrips _ (hfield c hc).1 rest), (hfield c hc).2]
    rfl
  canonical := by
    intro bs c rest hread
    obtain ⟨a, mid, ha, hread⟩ := Reader.bind_run_eq_ok.mp hread
    obtain ⟨rfl, rfl⟩ := Prod.mk.inj (Except.ok.inj hread)
    obtain ⟨hvalid, rfl⟩ := h.canonical bs a _ ha
    exact ⟨(hmk a hvalid).1, by beta_reduce; rw [(hmk a hvalid).2]⟩

end Records

/-- A check behind a reader takes the values it refuses out of the format. -/
theorem restrict {c : α → Prop} [DecidablePred c] {e : ε} (h : Decodes Valid write read) :
    Decodes (fun a => Valid a ∧ ¬ c a) write
      (read >>= fun a => if c a then Reader.fail e else Pure.pure a) where
  roundTrips := by
    rintro a ⟨ha, hc⟩ rest
    rw [Reader.bind_run_ok (h.roundTrips a ha rest), if_neg hc]
    rfl
  canonical := by
    intro bs a rest hread
    obtain ⟨b, mid, hb, hread⟩ := Reader.bind_run_eq_ok.mp hread
    by_cases hc : c b
    · rw [if_pos hc] at hread
      cases hread
    · rw [if_neg hc] at hread
      obtain ⟨rfl, rfl⟩ := Prod.mk.inj (Except.ok.inj hread)
      exact ⟨⟨(h.canonical bs b _ hb).1, hc⟩, (h.canonical bs b _ hb).2⟩

/-- The writer and the validity may be said in another way. -/
theorem congr {Valid' : α → Prop} {write' : α → List σ} (h : Decodes Valid write read)
    (hvalid : ∀ a, Valid a ↔ Valid' a) (hwrite : ∀ a, Valid a → write a = write' a) :
    Decodes Valid' write' read where
  roundTrips := by
    intro a ha rest
    rw [← hwrite a ((hvalid a).mpr ha)]
    exact h.roundTrips a ((hvalid a).mpr ha) rest
  canonical := by
    intro bs a rest hread
    obtain ⟨ha, rfl⟩ := h.canonical bs a rest hread
    exact ⟨(hvalid a).mp ha, by rw [hwrite a ha]⟩

/-- A list behind its length, read in blocks. -/
theorem counted {ValidSize : Nat → Prop} {writeSize : Nat → List σ}
    {readSize : Reader ε σ Nat} (hsize : Decodes ValidSize writeSize readSize)
    {Valids : List α → Prop} {writes : List α → List σ}
    {reads : Nat → Reader ε σ (List α)} (hdivides : Reader.Divides reads)
    (hreads : ∀ n, Decodes (fun as => as.length = n ∧ Valids as) writes (reads n))
    {k : Nat} (hk : 0 < k) :
    Decodes (fun as => ValidSize as.length ∧ Valids as)
      (fun as => writeSize as.length ++ writes as)
      (readSize >>= fun n => Reader.inBlocks reads k hk n 0 []) := by
  refine Decodes.bind List.length hsize (fun as h => h.1) fun n hn => ?_
  rw [hdivides.inBlocks_all]
  refine (hreads n).congr (fun as => ?_) fun _ _ => rfl
  constructor
  · rintro ⟨rfl, hvalids⟩
    exact ⟨⟨hn, hvalids⟩, rfl⟩
  · rintro ⟨⟨_, hvalids⟩, rfl⟩
    exact ⟨rfl, hvalids⟩

end Decodes

end Ziftrcoin.Lib
