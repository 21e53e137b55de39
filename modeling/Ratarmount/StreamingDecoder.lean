import Mathlib.Tactic.SplitIfs
import Ratarmount.ByteFields

/-!
# Streaming decoders

A decoder that is called with a piece of its input and some room for output, and
what it means that the decoded bytes do not depend on how the calls are cut.
-/

namespace Ratarmount.Streaming

/-- What one call reports: the state after it, the bytes taken, the bytes written, and whether the stream has ended. -/
structure Progress (S : Type) where
  state : S
  consumed : ℕ
  written : Bytes
  ended : Bool

structure Decoder (S : Type) where
  init : S
  call : S → Bytes → ℕ → Option (Progress S)

variable {S : Type} {d : Decoder S}

/-- Some sequence of calls takes `used` bytes of `rest`, writes `out` and ends the stream. -/
inductive Decodes (d : Decoder S) : S → Bytes → Bytes → ℕ → Prop
  | done {s rest n room r} (hn : 0 < n) (hroom : 0 < room) (hcall : d.call s (rest.take n) room = some r)
      (hend : r.ended = true) : Decodes d s rest r.written r.consumed
  | more {s rest n room r out used} (hn : 0 < n) (hroom : 0 < room)
      (hcall : d.call s (rest.take n) room = some r) (hend : r.ended = false)
      (hrest : Decodes d r.state (rest.drop r.consumed) out used) :
      Decodes d s rest (r.written ++ out) (r.consumed + used)

/-- One call on the way: what it did and what is left to decode after it. -/
structure Step (d : Decoder S) (rest : Bytes) (n room : ℕ) (r : Progress S) (out : Bytes) (used : ℕ)
    (out' : Bytes) (used' : ℕ) : Prop where
  fits : r.written.length ≤ room
  taken : r.consumed ≤ n
  moves : r.ended = false → r.written ≠ [] ∨ 0 < r.consumed
  out_eq : out = r.written ++ out'
  used_eq : used = r.consumed + used'
  left : Decodes d r.state (rest.drop r.consumed) out' used'
  last : r.ended = true → out' = [] ∧ used' = 0

/-- Wherever one cut of the calls decodes a stream, every other call makes progress on the same output. -/
def Steady (d : Decoder S) : Prop :=
  ∀ {s rest out used}, Decodes d s rest out used → ∀ {n room}, 0 < n → 0 < room →
    ∃ r out' used', d.call s (rest.take n) room = some r ∧ Step d rest n room r out used out' used'

/-- A small steady decoder: the bytes up to a zero, one at a call. -/
def literal : Decoder Bool where
  init := false
  call ended input _ :=
    match ended, input with
    | true, _ => some ⟨true,0,[],true⟩
    | false, [] => none
    | false, b :: _ => if b = 0 then some ⟨true,1,[],true⟩ else some ⟨false,1,[b],false⟩

theorem literal_call {b : UInt8} {tail : Bytes} {n : ℕ} (hn : 0<n) (room : ℕ) :
    literal.call false ((b::tail).take n) room = if b=0 then some ⟨true,1,[],true⟩ else some ⟨false,1,[b],false⟩ := by
  obtain ⟨k,rfl⟩ : ∃k,n=k+1:=⟨n - 1,by omega⟩
  rfl

theorem literal_ended (rest : Bytes) : Decodes literal true rest [] 0 :=
  @Decodes.done _ literal true rest 1 1 ⟨true,0,[],true⟩ Nat.one_pos Nat.one_pos rfl rfl

theorem literal_zero (tail : Bytes) : Decodes literal false (0::tail) [] 1 :=
  @Decodes.done _ literal false (0::tail) 1 1 ⟨true,1,[],true⟩ Nat.one_pos Nat.one_pos rfl rfl

theorem literal_byte {b : UInt8} (hb : b≠0) {tail out : Bytes} {used : ℕ} (h : Decodes literal false tail out used) :
    Decodes literal false (b::tail) (b::out) (1+used) :=
  @Decodes.more _ literal false (b::tail) 1 1 ⟨false,1,[b],false⟩ out used Nat.one_pos Nat.one_pos
    (by rw [literal_call Nat.one_pos,if_neg hb]) rfl h

/-- The one call that each kind of state and byte allows. -/
theorem decodes_literal {ended : Bool} {rest out : Bytes} {used : ℕ} (h : Decodes literal ended rest out used) :
    (ended=true ∧ out=[] ∧ used=0) ∨ (ended=false ∧ ∃b tail,rest=b::tail ∧ ((b=0 ∧ out=[] ∧ used=1) ∨
      (b≠0 ∧ ∃out' used',out=b::out' ∧ used=1+used' ∧ Decodes literal false tail out' used'))) := by
  cases ended with
  | true =>
    left
    cases h with
    | done _ _ hcall hend =>
      obtain rfl:=Option.some.inj hcall
      exact ⟨rfl,rfl,rfl⟩
    | more _ _ hcall hend _ =>
      obtain rfl:=Option.some.inj hcall
      cases hend
  | false =>
    right
    refine ⟨rfl,?_⟩
    cases rest with
    | nil =>
      cases h with
      | done _ _ hcall _ =>
        rw [List.take_nil] at hcall
        cases hcall
      | more _ _ hcall _ _ =>
        rw [List.take_nil] at hcall
        cases hcall
    | cons b tail =>
      refine ⟨b,tail,rfl,?_⟩
      cases h with
      | done hn _ hcall hend =>
        rw [literal_call hn] at hcall
        split_ifs at hcall with hb
        · obtain rfl:=Option.some.inj hcall
          exact .inl ⟨hb,rfl,rfl⟩
        · obtain rfl:=Option.some.inj hcall
          cases hend
      | more hn _ hcall hend hrest =>
        rw [literal_call hn] at hcall
        split_ifs at hcall with hb
        · obtain rfl:=Option.some.inj hcall
          cases hend
        · obtain rfl:=Option.some.inj hcall
          exact .inr ⟨hb,_,_,rfl,rfl,hrest⟩

theorem steady_literal : Steady literal := by
  intro ended rest out used h n room hn hroom
  rcases decodes_literal h with ⟨rfl,rfl,rfl⟩ | ⟨rfl,b,tail,rfl,hcase⟩
  · exact ⟨⟨true,0,[],true⟩,[],0,rfl,⟨Nat.zero_le _,Nat.zero_le _,nofun,rfl,rfl,literal_ended _,fun _ => ⟨rfl,rfl⟩⟩⟩
  · rw [literal_call hn]
    rcases hcase with ⟨hb,rfl,rfl⟩ | ⟨hb,out',used',rfl,rfl,hrest⟩
    · rw [if_pos hb]
      exact ⟨⟨true,1,[],true⟩,[],0,rfl,⟨Nat.zero_le _,hn,nofun,rfl,rfl,literal_ended _,fun _ => ⟨rfl,rfl⟩⟩⟩
    · rw [if_neg hb]
      exact ⟨⟨false,1,[b],false⟩,out',used',rfl,⟨hroom,hn,fun _ => .inr Nat.one_pos,rfl,rfl,hrest,nofun⟩⟩

end Ratarmount.Streaming
