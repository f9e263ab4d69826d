import MinixClipboard.Codec.Model
import MinixClipboard.Library.I386.Run

/-!
# The codec in assembler

`compress.asm`: `cipher`, `copy_safely` and `paste_safely` as they are linked, line by line, and
block by block under the numbers of their labels (`.L10` is `l10`). A register stands for its low
part where the instruction says so, as in `movb %dl, 8(%esp,%eax)`.
-/

namespace MinixClipboard

namespace Asm

open I386 Reg Instr

abbrev maxBufSize : UInt32 := 1024

abbrev alphabetSize : UInt32 := 26

abbrev lastAlphaIdx : UInt32 := 25

/-- The macro `zero`. -/
abbrev zero (r : Reg) : Instr := xorl r r

/-! ## `cipher` -/

namespace Cipher

def entry : List (Line Empty) :=
  [pushl ebp, movl (.imm (-1)) eax, pushl edi, pushl esi, pushl ebx, subl (.imm 1032) esp,
   movl (loc 1064 esp) ebx, movl (loc 1060 esp) ecx, cmpl (.imm maxBufSize) ebx, .jcc .a 1,
   testl ebx ebx, .jcc .e 3, zero eax]

def l4 : List (Line Empty) :=
  [movzbl (locIdx 0 ecx eax 1) edx, movb edx (locIdx 8 esp eax 1), addl (.imm 1) eax, cmpl eax ebx,
   .jcc .ne 4, leal (loc 8 esp) ecx, zero edx, movl (.imm 1) esi, movl ecx eax, addl ebx eax,
   zero ebx, movl eax (loc 0 esp), movl ebx (loc 1064 esp), .jmp 10]

def l34 : List (Line Empty) :=
  [zero edi, testl esi esi, .jcc .ne 6, leal (locIdx 0 edx edx 4) edi, addl edi edi]

def l6 : List (Line Empty) :=
  [leal (locIdx (-48) edi eax 1) esi, movl (.imm 1321528399) edx, movl esi eax, mull edx,
   shrl 3 edx, imull₃ alphabetSize edx edx, subl edx esi, movl esi edx, zero esi]

def l7 : List (Line Empty) :=
  [addl (.imm 1) ecx, cmpl ecx (loc 0 esp), .jcc .e 33]

def l10 : List (Line Empty) :=
  [movsbl (loc 0 ecx) eax, leal (loc (-48) eax) edi, movl edi ebx, cmpb (.imm 9) ebx, .jcc .be 34,
   movl (loc 1064 esp) edi, movl edi ebx, leal (loc 8 esp) ebp, addl (.imm 1) edi, addl ebx ebp,
   testl esi esi, .jcc .ne 8, leal (loc 8 esp) esi, movb edx (loc 0 ebp),
   leal (locIdx 0 esi edi 1) ebp, movl ebx edi, addl (.imm 2) edi]

def l8 : List (Line Empty) :=
  [leal (loc (-97) eax) ebx, cmpb (.imm 25) ebx, .jcc .a 9, movb ebx (loc 0 ebp),
   movl (.imm 1) esi, addl (.imm 1) ecx, movl edi (loc 1064 esp), cmpl ecx (loc 0 esp), .jcc .ne 10]

def l33 : List (Line Empty) :=
  [movl (loc 1064 esp) ebx, testl esi esi, .jcc .ne 3, movb edx (locIdx 8 esp ebx 1),
   addl (.imm 1) ebx]

def l3 : List (Line Empty) :=
  [movl (loc 1052 esp) esi, movl (loc 1056 esp) eax, zero edx, addl esi eax, movl eax (loc 4 esp),
   movl (loc 1056 esp) eax, testl eax eax, .jcc .e 16, movl ebx (loc 1064 esp),
   movl (loc 1068 esp) edi, .jmp 15]

def l35 : List (Line Empty) :=
  [leal (loc (-97) eax) ecx, cmpb (.imm lastAlphaIdx) ecx, .jcc .be 20, leal (loc (-65) eax) ecx,
   cmpb (.imm lastAlphaIdx) ecx, cmov .be ecx eax, cmpb (.imm alphabetSize) ecx, sbbl ebx ebx,
   andl (.imm 65) ebx, movb ebx (loc 0 esp)]

/-- `.L12`, where the key is added. -/
def l12Add : List (Line Empty) :=
  [movzbl (locIdx 8 esp edx 1) ebp, movl (.imm alphabetSize) ecx, movl ebp ebx, subl ebx ecx,
   addl eax ecx, addl ebp eax, cmpl (.imm 1) edi, cmov .ne eax ecx, addl (.imm 1) esi]

/-- Further on, where the remainder is computed, of a byte with a sign. -/
def l12Rem : List (Line Empty) :=
  [movsbw ecx ebp, movl ecx ebx, leal (locIdx 0 ebp ebp 4) eax, sarb 7 ebx, sall 4 eax,
   subl ebp eax, sarw 11 eax, subl ebx eax, movl (.imm alphabetSize) ebx, imull ebx eax,
   movzbl (loc 0 esp) ebx, subl eax ecx]

/-- Further on, where the character is stored, and the position in the key moves on. -/
def l12Store : List (Line Empty) :=
  [leal (loc 1 edx) eax, zero edx, addl ecx ebx, divl (loc 1064 esp), movb ebx (loc (-1) esi),
   cmpl esi (loc 4 esp), .jcc .e 16]

def l12 : List (Line Empty) := l12Add ++ l12Rem ++ l12Store

def l15 : List (Line Empty) :=
  [movzbl (loc 0 esi) eax, leal (loc (-48) eax) ecx, cmpb (.imm 9) ecx, .jcc .a 35, movl ecx eax,
   movb (.imm 48) (loc 0 esp), .jmp 12]

def l9 : List (Line Empty) :=
  [subl (.imm 65) eax, movl edi (loc 1064 esp), movl (.imm 1) esi, movb eax (loc 0 ebp), .jmp 7]

def l16 : List (Line Empty) :=
  [zero eax]

def l1 : List (Line Empty) :=
  [addl (.imm 1032) esp, popl ebx, popl esi, popl edi, popl ebp, .ret]

def l20 : List (Line Empty) :=
  [movl ecx eax, movb (.imm 97) (loc 0 esp), .jmp 12]

def code : List (Line Empty) :=
  entry ++ .label 4 :: l4 ++ .label 34 :: l34 ++ .label 6 :: l6 ++ .label 7 :: l7 ++
    .label 10 :: l10 ++ .label 8 :: l8 ++ .label 33 :: l33 ++ .label 3 :: l3 ++ .label 35 :: l35 ++
    .label 12 :: l12 ++ .label 15 :: l15 ++ .label 9 :: l9 ++ .label 16 :: l16 ++ .label 1 :: l1 ++
    .label 20 :: l20

end Cipher

/-! ## `copy_safely` -/

namespace CopySafely

/-- What `copy_safely` calls. -/
inductive Call
  | cipher
  | copyToClipboard

def entry : List (Line Call) :=
  [pushl ebp, pushl edi, pushl esi, pushl ebx, subl (.imm 1068) esp, movl (loc 1092 esp) eax,
   movl (loc 1088 esp) ebx, movl (loc 0 eax) ecx, cmpl (.imm maxBufSize) ecx, .jcc .a 51, zero eax,
   testl ecx ecx, .jcc .e 41]

def l38 : List (Line Call) :=
  [movzbl (locIdx 0 ebx eax 1) edx, movb edx (locIdx 32 esp eax 1), addl (.imm 1) eax,
   cmpl eax ecx, .jcc .ne 38]

/-- `.L41`, up to the call. -/
def l41Call : List (Line Call) :=
  [pushl (.imm 0), pushl (loc 1104 esp), pushl (loc 1104 esp), pushl ecx, leal (loc 48 esp) eax,
   pushl eax, .call .cipher]

def l41Back : List (Line Call) :=
  [movl (loc 1112 esp) eax, addl (.imm 20) esp, movl (loc 0 eax) edi, testl edi edi, .jcc .e 40,
   leal (loc 32 esp) ebp, zero ecx, movl ebp eax, addl edi eax, zero edi, movl eax (loc 4 esp),
   zero eax]

def l41 : List (Line Call) := l41Call ++ l41Back

def l47 : List (Line Call) :=
  [movzbl (loc 0 ebp) esi, movl esi ebx, cmpb eax ebx, .jcc .e 70, testl ecx ecx, .jcc .e 53,
   leal (loc 1 edi) ebx, movb eax (locIdx 32 esp edi 1), movl ebx (loc 8 esp), cmpl (.imm 1) ecx,
   .jcc .e 54, movl esi eax, zero ebx, movb eax (loc 15 esp), .jmp 44]

def l55 : List (Line Call) :=
  [movl eax ebx, movl edx ecx]

def l44 : List (Line Call) :=
  [movl (.imm (-858993459)) eax, movl ecx esi, mull ecx, shrl 3 edx, leal (locIdx 0 edx edx 4) eax,
   addl eax eax, subl eax esi, movl esi eax, addl (.imm 48) eax, movb eax (locIdx 16 esp ebx 1),
   leal (loc 1 ebx) eax, cmpl (.imm 9) ecx, .jcc .a 55, movzbl (loc 15 esp) esi, testl ebx ebx,
   .jcc .s 56, leal (loc 16 esp) eax, leal (loc 32 esp) edx, movl ebx (loc 0 esp),
   addl (loc 8 esp) edx, addl ebx eax, .jmp 46]

def l57 : List (Line Call) :=
  [movl ecx eax]

def l46 : List (Line Call) :=
  [movzbl (loc 0 eax) ecx, leal (loc 16 esp) ebx, addl (.imm 1) edx, movb ecx (loc (-1) edx),
   leal (loc (-1) eax) ecx, cmpl ebx eax, .jcc .ne 57, movl (loc 0 esp) ebx,
   leal (locIdx 2 edi ebx 1) edi]

def l53 : List (Line Call) :=
  [movl esi eax, movl (.imm 1) ecx]

def l43 : List (Line Call) :=
  [addl (.imm 1) ebp, cmpl (loc 4 esp) ebp, .jcc .ne 47, testl ecx ecx, .jcc .e 40,
   leal (loc 1 edi) esi, movb eax (locIdx 32 esp edi 1), movl esi (loc 4 esp), cmpl (.imm 1) ecx,
   .jcc .e 58, zero ebx, leal (loc 16 esp) esi, movl (.imm (-858993459)) ebp, movl edi (loc 8 esp),
   .jmp 48]

def l59 : List (Line Call) :=
  [movl eax ebx, movl edx ecx]

def l48 : List (Line Call) :=
  [movl ecx eax, movl ecx edi, mull ebp, shrl 3 edx, leal (locIdx 0 edx edx 4) eax, addl eax eax,
   subl eax edi, movl edi eax, addl (.imm 48) eax, movb eax (locIdx 0 esi ebx 1),
   leal (loc 1 ebx) eax, cmpl (.imm 9) ecx, .jcc .a 59, movl (loc 8 esp) edi, testl ebx ebx,
   .jcc .s 58, leal (loc 32 esp) ebp, leal (locIdx 0 esi ebx 1) eax, addl (loc 4 esp) ebp, .jmp 50]

def l61 : List (Line Call) :=
  [movl edx eax]

def l50 : List (Line Call) :=
  [movzbl (loc 0 eax) edx, addl (.imm 1) ebp, movb edx (loc (-1) ebp), leal (loc (-1) eax) edx,
   cmpl eax esi, .jcc .ne 61, leal (locIdx 2 edi ebx 1) edi]

/-- `.L40`, up to the call. -/
def l40Call : List (Line Call) :=
  [subl (.imm 8) esp, pushl edi, leal (loc 44 esp) eax, pushl eax, .call .copyToClipboard]

def l40Back : List (Line Call) :=
  [movl (loc 1108 esp) esi, addl (.imm 16) esp, movl edi (loc 0 esi)]

def l40 : List (Line Call) := l40Call ++ l40Back

def l36 : List (Line Call) :=
  [addl (.imm 1068) esp, popl ebx, popl esi, popl edi, popl ebp, .ret]

def l70 : List (Line Call) :=
  [addl (.imm 1) ecx, .jmp 43]

def l54 : List (Line Call) :=
  [movl (loc 8 esp) edi, movl esi eax, .jmp 43]

def l56 : List (Line Call) :=
  [movl (loc 8 esp) edi, .jmp 53]

def l58 : List (Line Call) :=
  [movl (loc 4 esp) edi, .jmp 40]

def l51 : List (Line Call) :=
  [movl (.imm (-1)) eax, .jmp 36]

def code : List (Line Call) :=
  entry ++ .label 38 :: l38 ++ .label 41 :: l41 ++ .label 47 :: l47 ++ .label 55 :: l55 ++
    .label 44 :: l44 ++ .label 57 :: l57 ++ .label 46 :: l46 ++ .label 53 :: l53 ++
    .label 43 :: l43 ++ .label 59 :: l59 ++ .label 48 :: l48 ++ .label 61 :: l61 ++
    .label 50 :: l50 ++ .label 40 :: l40 ++ .label 36 :: l36 ++ .label 70 :: l70 ++
    .label 54 :: l54 ++ .label 56 :: l56 ++ .label 58 :: l58 ++ .label 51 :: l51

end CopySafely

/-! ## `paste_safely` -/

namespace PasteSafely

/-- What `paste_safely` calls. -/
inductive Call
  | pasteFromClipboard
  | cipher

/-- The first lines, up to the call. -/
def entryCall : List (Line Call) :=
  [pushl ebp, pushl edi, pushl esi, pushl ebx, subl (.imm 1072) esp, movl (loc 1100 esp) ebx,
   leal (loc 32 esp) eax, movl ebx (loc 32 esp), pushl eax, leal (loc 40 esp) esi, pushl esi,
   pushl (loc 1100 esp), .call .pasteFromClipboard]

def entryBack : List (Line Call) :=
  [movl eax (loc 24 esp), addl (.imm 16) esp, testl eax eax, .jcc .ne 71, testl ebx ebx, .jcc .e 73,
   movsbl (loc 32 esp) eax, zero edx, testb eax eax, .jcc .ne 77, .jmp 74]

def entry : List (Line Call) := entryCall ++ entryBack

def l75 : List (Line Call) :=
  [cmpb (.imm 0) (locIdx 0 esi edx 1), .jcc .e 74]

def l77 : List (Line Call) :=
  [addl (.imm 1) edx, cmpl edx ebx, .jcc .ne 75, movl ebx edx]

def l74 : List (Line Call) :=
  [movl (loc 1092 esp) edi, movl (loc 1092 esp) ecx, addl ebx edi]

def l76 : List (Line Call) :=
  [movb (.imm 0) (loc 0 ecx), addl (.imm 1) ecx, cmpl ecx edi, .jcc .ne 76, testl edx edx,
   .jcc .e 78, addl edx esi, leal (loc 33 esp) ecx, zero edx, movl (.imm 1) ebp,
   movl esi (loc 4 esp), zero edi, zero esi, movl ebx (loc 1096 esp), .jmp 86]

def l110 : List (Line Call) :=
  [testl edi edi, .jcc .ne 109, movl (loc 1092 esp) ebx, movl (.imm 1) edi]

def l80 : List (Line Call) :=
  [movb eax (loc 0 ebx), movl eax esi, cmpl ecx (loc 4 esp), .jcc .e 85]

def l111 : List (Line Call) :=
  [movsbl (loc 0 ecx) eax, addl (.imm 1) ecx]

def l86 : List (Line Call) :=
  [leal (loc (-48) eax) ebx, cmpb (.imm 9) ebx, .jcc .a 110, zero ebx, cmpl (.imm 1) ebp,
   .jcc .e 84, leal (locIdx 0 edx edx 4) ebx, addl ebx ebx]

def l84 : List (Line Call) :=
  [leal (locIdx (-48) ebx eax 1) ebx, movl (.imm 1321528399) eax, zero ebp, mull ebx, shrl 3 edx,
   imull₃ alphabetSize edx edx, subl edx ebx, movl ebx edx, cmpl ecx (loc 4 esp), .jcc .ne 111]

def l85 : List (Line Call) :=
  [movl (loc 1096 esp) ebx, cmpl (.imm 1) edx, .jcc .be 78, movl (loc 1092 esp) ecx,
   movl (loc 1092 esp) eax, leal (locIdx (-1) ecx edi 1) ecx, addl edi eax, addl ecx edx,
   movl esi ecx]

def l87 : List (Line Call) :=
  [movb ecx (loc 0 eax), addl (.imm 1) eax, cmpl edx eax, .jcc .ne 87]

def l78 : List (Line Call) :=
  [movl (loc 1092 esp) esi, zero eax, movl (loc 1092 esp) edx, cmpb (.imm 0) (loc 0 esi),
   .jcc .ne 88, .jmp 112]

def l114 : List (Line Call) :=
  [cmpb (.imm 0) (locIdx 0 edx eax 1), .jcc .e 113]

def l88 : List (Line Call) :=
  [addl (.imm 1) eax, cmpl eax ebx, .jcc .ne 114]

/-- `.L73`, up to the call. -/
def l73Call : List (Line Call) :=
  [subl (.imm 12) esp, pushl (.imm 1), pushl (loc 1120 esp), pushl (loc 1120 esp), pushl ebx,
   pushl (loc 1120 esp), .call .cipher]

def l73Back : List (Line Call) :=
  [addl (.imm 32) esp]

def l73 : List (Line Call) := l73Call ++ l73Back

def l71 : List (Line Call) :=
  [movl (loc 8 esp) eax, addl (.imm 1068) esp, popl ebx, popl esi, popl edi, popl ebp, .ret]

def l109 : List (Line Call) :=
  [movl (loc 1092 esp) ebx, addl edi ebx, cmpl (.imm 1) edx, .jcc .be 115, movl (loc 1092 esp) ebp,
   movb eax (loc 15 esp), movl esi eax, movzbl (loc 15 esp) esi, leal (locIdx (-1) ebp edi 1) ebp,
   addl edx ebp]

def l82 : List (Line Call) :=
  [movb eax (loc 0 ebx), addl (.imm 1) ebx, cmpl ebx ebp, .jcc .ne 82, movl esi eax,
   movl (loc 1092 esp) esi, addl edx edi, movl (.imm 1) ebp, zero edx,
   leal (locIdx (-1) esi edi 1) ebx, .jmp 80]

def l113 : List (Line Call) :=
  [movl eax ebx, .jmp 73]

def l115 : List (Line Call) :=
  [addl (.imm 1) edi, movl (.imm 1) ebp, zero edx, .jmp 80]

def l112 : List (Line Call) :=
  [zero ebx, .jmp 73]

def code : List (Line Call) :=
  entry ++ .label 75 :: l75 ++ .label 77 :: l77 ++ .label 74 :: l74 ++ .label 76 :: l76 ++
    .label 110 :: l110 ++ .label 80 :: l80 ++ .label 111 :: l111 ++ .label 86 :: l86 ++
    .label 84 :: l84 ++ .label 85 :: l85 ++ .label 87 :: l87 ++ .label 78 :: l78 ++
    .label 114 :: l114 ++ .label 88 :: l88 ++ .label 73 :: l73 ++ .label 71 :: l71 ++
    .label 109 :: l109 ++ .label 82 :: l82 ++ .label 113 :: l113 ++ .label 115 :: l115 ++
    .label 112 :: l112

end PasteSafely

end Asm

end MinixClipboard
