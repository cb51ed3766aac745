/-!
Upper case by the full Unicode mapping, where one letter may become several.
-/
namespace EmbeddedGraphQL.Text

/-- Runs of letters that have a single upper case letter at a fixed distance. -/
structure CaseRun where
  first : Nat
  last : Nat
  stride : Nat
  distance : Int

private def caseRun (first last stride : Nat) (distance : Int) : CaseRun :=
  ⟨first, last, stride, distance⟩

def caseRuns : List CaseRun := [
  caseRun 97 122 1 (-32), caseRun 181 181 1 743, caseRun 224 246 1 (-32), caseRun 248 254 1 (-32),
  caseRun 255 255 1 121, caseRun 257 303 2 (-1), caseRun 305 305 1 (-232), caseRun 307 311 2 (-1),
  caseRun 314 328 2 (-1), caseRun 331 375 2 (-1), caseRun 378 382 2 (-1), caseRun 383 383 1 (-300),
  caseRun 384 384 1 195, caseRun 387 389 2 (-1), caseRun 392 392 1 (-1), caseRun 396 396 1 (-1),
  caseRun 402 402 1 (-1), caseRun 405 405 1 97, caseRun 409 409 1 (-1), caseRun 410 410 1 163,
  caseRun 414 414 1 130, caseRun 417 421 2 (-1), caseRun 424 424 1 (-1), caseRun 429 429 1 (-1),
  caseRun 432 432 1 (-1), caseRun 436 438 2 (-1), caseRun 441 441 1 (-1), caseRun 445 445 1 (-1),
  caseRun 447 447 1 56, caseRun 453 453 1 (-1), caseRun 454 454 1 (-2), caseRun 456 456 1 (-1),
  caseRun 457 457 1 (-2), caseRun 459 459 1 (-1), caseRun 460 460 1 (-2), caseRun 462 476 2 (-1),
  caseRun 477 477 1 (-79), caseRun 479 495 2 (-1), caseRun 498 498 1 (-1), caseRun 499 499 1 (-2),
  caseRun 501 501 1 (-1), caseRun 505 543 2 (-1), caseRun 547 563 2 (-1), caseRun 572 572 1 (-1),
  caseRun 575 576 1 10815, caseRun 578 578 1 (-1), caseRun 583 591 2 (-1), caseRun 592 592 1 10783,
  caseRun 593 593 1 10780, caseRun 594 594 1 10782, caseRun 595 595 1 (-210),
  caseRun 596 596 1 (-206), caseRun 598 599 1 (-205), caseRun 601 601 1 (-202),
  caseRun 603 603 1 (-203), caseRun 604 604 1 42319, caseRun 608 608 1 (-205),
  caseRun 609 609 1 42315, caseRun 611 611 1 (-207), caseRun 613 613 1 42280,
  caseRun 614 614 1 42308, caseRun 616 616 1 (-209), caseRun 617 617 1 (-211),
  caseRun 618 618 1 42308, caseRun 619 619 1 10743, caseRun 620 620 1 42305,
  caseRun 623 623 1 (-211), caseRun 625 625 1 10749, caseRun 626 626 1 (-213),
  caseRun 629 629 1 (-214), caseRun 637 637 1 10727, caseRun 640 640 1 (-218),
  caseRun 642 642 1 42307, caseRun 643 643 1 (-218), caseRun 647 647 1 42282,
  caseRun 648 648 1 (-218), caseRun 649 649 1 (-69), caseRun 650 651 1 (-217),
  caseRun 652 652 1 (-71), caseRun 658 658 1 (-219), caseRun 669 669 1 42261,
  caseRun 670 670 1 42258, caseRun 837 837 1 84, caseRun 881 883 2 (-1), caseRun 887 887 1 (-1),
  caseRun 891 893 1 130, caseRun 940 940 1 (-38), caseRun 941 943 1 (-37), caseRun 945 961 1 (-32),
  caseRun 962 962 1 (-31), caseRun 963 971 1 (-32), caseRun 972 972 1 (-64),
  caseRun 973 974 1 (-63), caseRun 976 976 1 (-62), caseRun 977 977 1 (-57),
  caseRun 981 981 1 (-47), caseRun 982 982 1 (-54), caseRun 983 983 1 (-8), caseRun 985 1007 2 (-1),
  caseRun 1008 1008 1 (-86), caseRun 1009 1009 1 (-80), caseRun 1010 1010 1 7,
  caseRun 1011 1011 1 (-116), caseRun 1013 1013 1 (-96), caseRun 1016 1016 1 (-1),
  caseRun 1019 1019 1 (-1), caseRun 1072 1103 1 (-32), caseRun 1104 1119 1 (-80),
  caseRun 1121 1153 2 (-1), caseRun 1163 1215 2 (-1), caseRun 1218 1230 2 (-1),
  caseRun 1231 1231 1 (-15), caseRun 1233 1327 2 (-1), caseRun 1377 1414 1 (-48),
  caseRun 4304 4346 1 3008, caseRun 4349 4351 1 3008, caseRun 5112 5117 1 (-8),
  caseRun 7296 7296 1 (-6254), caseRun 7297 7297 1 (-6253), caseRun 7298 7298 1 (-6244),
  caseRun 7299 7300 1 (-6242), caseRun 7301 7301 1 (-6243), caseRun 7302 7302 1 (-6236),
  caseRun 7303 7303 1 (-6181), caseRun 7304 7304 1 35266, caseRun 7545 7545 1 35332,
  caseRun 7549 7549 1 3814, caseRun 7566 7566 1 35384, caseRun 7681 7829 2 (-1),
  caseRun 7835 7835 1 (-59), caseRun 7841 7935 2 (-1), caseRun 7936 7943 1 8, caseRun 7952 7957 1 8,
  caseRun 7968 7975 1 8, caseRun 7984 7991 1 8, caseRun 8000 8005 1 8, caseRun 8017 8023 2 8,
  caseRun 8032 8039 1 8, caseRun 8048 8049 1 74, caseRun 8050 8053 1 86, caseRun 8054 8055 1 100,
  caseRun 8056 8057 1 128, caseRun 8058 8059 1 112, caseRun 8060 8061 1 126, caseRun 8112 8113 1 8,
  caseRun 8126 8126 1 (-7205), caseRun 8144 8145 1 8, caseRun 8160 8161 1 8, caseRun 8165 8165 1 7,
  caseRun 8526 8526 1 (-28), caseRun 8560 8575 1 (-16), caseRun 8580 8580 1 (-1),
  caseRun 9424 9449 1 (-26), caseRun 11312 11359 1 (-48), caseRun 11361 11361 1 (-1),
  caseRun 11365 11365 1 (-10795), caseRun 11366 11366 1 (-10792), caseRun 11368 11372 2 (-1),
  caseRun 11379 11379 1 (-1), caseRun 11382 11382 1 (-1), caseRun 11393 11491 2 (-1),
  caseRun 11500 11502 2 (-1), caseRun 11507 11507 1 (-1), caseRun 11520 11557 1 (-7264),
  caseRun 11559 11559 1 (-7264), caseRun 11565 11565 1 (-7264), caseRun 42561 42605 2 (-1),
  caseRun 42625 42651 2 (-1), caseRun 42787 42799 2 (-1), caseRun 42803 42863 2 (-1),
  caseRun 42874 42876 2 (-1), caseRun 42879 42887 2 (-1), caseRun 42892 42892 1 (-1),
  caseRun 42897 42899 2 (-1), caseRun 42900 42900 1 48, caseRun 42903 42921 2 (-1),
  caseRun 42933 42947 2 (-1), caseRun 42952 42954 2 (-1), caseRun 42961 42961 1 (-1),
  caseRun 42967 42969 2 (-1), caseRun 42998 42998 1 (-1), caseRun 43859 43859 1 (-928),
  caseRun 43888 43967 1 (-38864), caseRun 65345 65370 1 (-32), caseRun 66600 66639 1 (-40),
  caseRun 66776 66811 1 (-40), caseRun 66967 66977 1 (-39), caseRun 66979 66993 1 (-39),
  caseRun 66995 67001 1 (-39), caseRun 67003 67004 1 (-39), caseRun 68800 68850 1 (-64),
  caseRun 71872 71903 1 (-32), caseRun 93792 93823 1 (-32), caseRun 125218 125251 1 (-34)]

/-- Letters whose upper case is more than one letter. -/
def caseExpansions : List (Nat × List Nat) := [
  (223, [83, 83]), (329, [700, 78]), (496, [74, 780]), (912, [921, 776, 769]),
  (944, [933, 776, 769]), (1415, [1333, 1362]), (7830, [72, 817]), (7831, [84, 776]),
  (7832, [87, 778]), (7833, [89, 778]), (7834, [65, 702]), (8016, [933, 787]),
  (8018, [933, 787, 768]), (8020, [933, 787, 769]), (8022, [933, 787, 834]),
  (8064, [7944, 921]), (8065, [7945, 921]), (8066, [7946, 921]), (8067, [7947, 921]),
  (8068, [7948, 921]), (8069, [7949, 921]), (8070, [7950, 921]), (8071, [7951, 921]),
  (8072, [7944, 921]), (8073, [7945, 921]), (8074, [7946, 921]), (8075, [7947, 921]),
  (8076, [7948, 921]), (8077, [7949, 921]), (8078, [7950, 921]), (8079, [7951, 921]),
  (8080, [7976, 921]), (8081, [7977, 921]), (8082, [7978, 921]), (8083, [7979, 921]),
  (8084, [7980, 921]), (8085, [7981, 921]), (8086, [7982, 921]), (8087, [7983, 921]),
  (8088, [7976, 921]), (8089, [7977, 921]), (8090, [7978, 921]), (8091, [7979, 921]),
  (8092, [7980, 921]), (8093, [7981, 921]), (8094, [7982, 921]), (8095, [7983, 921]),
  (8096, [8040, 921]), (8097, [8041, 921]), (8098, [8042, 921]), (8099, [8043, 921]),
  (8100, [8044, 921]), (8101, [8045, 921]), (8102, [8046, 921]), (8103, [8047, 921]),
  (8104, [8040, 921]), (8105, [8041, 921]), (8106, [8042, 921]), (8107, [8043, 921]),
  (8108, [8044, 921]), (8109, [8045, 921]), (8110, [8046, 921]), (8111, [8047, 921]),
  (8114, [8122, 921]), (8115, [913, 921]), (8116, [902, 921]), (8118, [913, 834]),
  (8119, [913, 834, 921]), (8124, [913, 921]), (8130, [8138, 921]), (8131, [919, 921]),
  (8132, [905, 921]), (8134, [919, 834]), (8135, [919, 834, 921]), (8140, [919, 921]),
  (8146, [921, 776, 768]), (8147, [921, 776, 769]), (8150, [921, 834]),
  (8151, [921, 776, 834]), (8162, [933, 776, 768]), (8163, [933, 776, 769]),
  (8164, [929, 787]), (8166, [933, 834]), (8167, [933, 776, 834]), (8178, [8186, 921]),
  (8179, [937, 921]), (8180, [911, 921]), (8182, [937, 834]), (8183, [937, 834, 921]),
  (8188, [937, 921]), (64256, [70, 70]), (64257, [70, 73]), (64258, [70, 76]),
  (64259, [70, 70, 73]), (64260, [70, 70, 76]), (64261, [83, 84]), (64262, [83, 84]),
  (64275, [1348, 1350]), (64276, [1348, 1333]), (64277, [1348, 1339]), (64278, [1358, 1350]),
  (64279, [1348, 1341])]

def upperChar (c : Char) : List Char :=
  let n := c.val.toNat
  if n < 128 then [c.toUpper]
  else match caseExpansions.lookup n with
    | some letters => letters.map Char.ofNat
    | none =>
      match caseRuns.find? fun r => r.first ≤ n && n ≤ r.last && (n - r.first) % r.stride == 0 with
      | some r => [Char.ofNat (n + r.distance).toNat]
      | none => [c]

def upper (text : String) : String := String.ofList (text.toList.flatMap upperChar)

end EmbeddedGraphQL.Text
